import DiscreteMath.Proofs.Proposition.Grammar
import Mathlib

/-!
# The productions of propositional formulas

The grammar of formulas in its usual form, with a phrase for each level and repetition:

* `or := and (∨ and)*`, `and := iff (∧ iff)*`, `iff := implication (↔ implication)*`
* `implication := xor (→ implication)?`
* `xor := unary (⊕ unary)*`
* `unary := ¬ unary | primary`
* `primary := variable | ( or )`

It derives what the grammar without repetition derives, so the reader accepts exactly these phrases.

## Main definitions

* `Production.Yields` — the tokens are a phrase, and the formula is its tree.
-/

namespace DiscreteMath.Proposition

open Text

namespace Production

inductive Phrase where
  | or | and | iff | implication | xor | unary | primary

/-- The productions `phrase := operand (c operand)*`. -/
inductive Repeats : Phrase → Connective → Phrase → Prop
  | or : Repeats .or .or .and
  | and : Repeats .and .and .iff
  | iff : Repeats .iff .iff .implication
  | xor : Repeats .xor .xor .unary

structure Repetition where
  position : Nat
  formula : Formula
  operand : List (Placed Token)

def grouped (c : Connective) (first : Formula) (repetitions : List Repetition) : Formula :=
  repetitions.foldl (fun left next => .binary left c next.formula next.position) first

def joined (c : Connective) (first : List (Placed Token)) (repetitions : List Repetition) :
    List (Placed Token) :=
  first ++ repetitions.flatMap fun next => ⟨.connective c, next.position⟩ :: next.operand

/-- The tokens are a phrase with the formula as its tree. -/
inductive Yields : Phrase → Formula → List (Placed Token) → Prop
  | repeated {phrase operand : Phrase} {c : Connective} (production : Repeats phrase c operand)
      (repetitions : List Repetition) {t : Formula} {first : List (Placed Token)} :
      Yields operand t first →
      (∀ next ∈ repetitions, Yields operand next.formula next.operand) →
      Yields phrase (grouped c t repetitions) (joined c first repetitions)
  | conclusion {t : Formula} {tokens : List (Placed Token)} :
      Yields .xor t tokens → Yields .implication t tokens
  | implication (p : Nat) {l r : Formula} {first second : List (Placed Token)} :
      Yields .xor l first → Yields .implication r second →
      Yields .implication (.binary l .implies r p) (first ++ ⟨.connective .implies, p⟩ :: second)
  | negation (p : Nat) {t : Formula} {body : List (Placed Token)} :
      Yields .unary t body → Yields .unary (.negation t p) (⟨.negation, p⟩ :: body)
  | primary {t : Formula} {tokens : List (Placed Token)} :
      Yields .primary t tokens → Yields .unary t tokens
  | name (letters : String) (p : Nat) :
      Yields .primary (.atom letters p) [⟨.name letters, p⟩]
  | parentheses (p q : Nat) {t : Formula} {inner : List (Placed Token)} :
      Yields .or t inner → Yields .primary t (⟨.opening, p⟩ :: inner ++ [⟨.closing, q⟩])

variable {phrase operand : Phrase} {c : Connective} {t l r : Formula}
variable {found first second : List (Placed Token)}

/-! ### What the productions yield is derived -/

def Phrase.level : Phrase → Option Connective
  | or => some .or
  | and => some .and
  | iff => some .iff
  | implication => some .implies
  | xor => some .xor
  | unary | primary => none

theorem Repeats.level (production : Repeats phrase c operand) :
    phrase.level = some c ∧ operand.level = c.tighter? ∧ c ≠ .implies := by
  cases production <;> exact ⟨rfl, rfl, nofun⟩

theorem derives_grouped (other : c ≠ .implies) {repetitions : List Repetition}
    (derives : Derives (some c) t first)
    (operands : ∀ next ∈ repetitions, Derives c.tighter? next.formula next.operand) :
    Derives (some c) (grouped c t repetitions) (joined c first repetitions) := by
  induction repetitions generalizing t first with
  | nil => simpa [grouped, joined] using derives
  | cons next rest ih =>
    have longer := derives.left other next.position (operands next List.mem_cons_self)
    have whole := ih longer fun later member => operands later (List.mem_cons_of_mem next member)
    simpa [grouped, joined] using whole

theorem Yields.derives (yields : Yields phrase t found) : Derives phrase.level t found := by
  induction yields with
  | repeated production repetitions _ _ first operands =>
    obtain ⟨level, tighter, other⟩ := production.level
    rw [tighter] at first operands
    rw [level]
    exact derives_grouped other (.operand first) operands
  | conclusion _ ih => exact .operand ih
  | implication p _ _ left right => exact .right p left right
  | negation p _ ih => exact .negation p ih
  | primary _ ih => exact ih
  | name letters p => exact .name letters p
  | parentheses p q _ ih => exact .parentheses p q ih

/-! ### What is derived the productions yield -/

def Phrase.ofLevel : Option Connective → Phrase
  | none => unary
  | some .or => or
  | some .and => and
  | some .iff => iff
  | some .implies => implication
  | some .xor => xor

theorem repeats_ofLevel (other : c ≠ .implies) :
    Repeats (.ofLevel (some c)) c (.ofLevel c.tighter?) := by
  cases c with
  | or => exact .or
  | and => exact .and
  | iff => exact .iff
  | implies => exact absurd rfl other
  | xor => exact .xor

theorem Yields.single (production : Repeats phrase c operand) (yields : Yields operand t found) :
    Yields phrase t found := by
  have whole := Yields.repeated production [] yields nofun
  simpa [grouped, joined] using whole

/-- One more repetition. -/
theorem Yields.append (production : Repeats phrase c operand) (p : Nat)
    (left : Yields phrase l first) (right : Yields operand r second) :
    Yields phrase (.binary l c r p) (first ++ ⟨.connective c, p⟩ :: second) := by
  cases left with
  | @repeated _ operand' c' production' repetitions t front start operands =>
    obtain ⟨rfl, rfl⟩ : c' = c ∧ operand' = operand := by
      cases production <;> cases production' <;> exact ⟨rfl, rfl⟩
    have whole := Yields.repeated production (repetitions ++ [⟨p, r, second⟩]) start
      fun next member => by
        rcases List.mem_append.mp member with member | member
        · exact operands next member
        · rw [List.mem_singleton.mp member]
          exact right
    simpa [grouped, joined] using whole
  | conclusion | implication | negation | primary | name | parentheses => cases production

theorem yields_of_derives {level : Option Connective} (derives : Derives level t found) :
    Yields (.ofLevel level) t found := by
  induction derives with
  | name letters p => exact .primary (.name letters p)
  | negation p _ ih => exact .negation p ih
  | parentheses p q _ ih => exact .primary (.parentheses p q ih)
  | @operand c t tokens _ ih =>
    by_cases implies : c = .implies
    · subst implies
      exact .conclusion ih
    · exact .single (repeats_ofLevel implies) ih
  | left other p _ _ first second => exact .append (repeats_ofLevel other) p first second
  | right p _ _ first second => exact .implication p first second

/-! ### Reading -/

/-- A text is read as a formula exactly if all its tokens together are an `or` phrase with this
tree, and tokens have at most one tree. -/
theorem read_iff_yields :
    (∀ text t, Formula.read text = .ok t ↔
        ∃ found, tokens text = .ok found ∧ Yields .or t found) ∧
      ∀ phrase found s t, Yields phrase s found → Yields phrase t found → s = t := by
  refine ⟨fun text t => ?_, fun phrase found s t first second => ?_⟩
  · rw [read_eq_ok_iff]
    constructor
    · rintro ⟨found, lexed, derives⟩
      exact ⟨found, lexed, yields_of_derives derives⟩
    · rintro ⟨found, lexed, yields⟩
      exact ⟨found, lexed, yields.derives⟩
  · exact first.derives.unique second.derives

/-- An operand of a conjunction may be an implication, which groups to the right. -/
theorem read_iff_yields_implication :
    ∃ found, tokens "s∧p→q→r".toList = .ok found ∧
      Yields .or (.binary (.atom "s" 1) .and (.binary (.atom "p" 3) .implies
        (.binary (.atom "q" 5) .implies (.atom "r" 7) 6) 4) 2) found ∧
      ∀ t, Yields .or t found → t = .binary (.atom "s" 1) .and (.binary (.atom "p" 3) .implies
        (.binary (.atom "q" 5) .implies (.atom "r" 7) 6) 4) 2 := by
  obtain ⟨reads, unique⟩ := read_iff_yields
  have read : Formula.read "s∧p→q→r".toList = .ok (.binary (.atom "s" 1) .and (.binary (.atom "p" 3)
    .implies (.binary (.atom "q" 5) .implies (.atom "r" 7) 6) 4) 2) := by cbv
  obtain ⟨found, lexed, yields⟩ := (reads _ _).mp read
  exact ⟨found, lexed, yields, fun t other => unique .or found t _ other yields⟩

end Production

end DiscreteMath.Proposition
