import DiscreteMath.SetAlgebra.Postfix

/-!
# Terms and their postfix order

A term is a set expression as a tree. It is written with at least the parentheses that the levels of
the grammar ask for, and from every such text the postfix order is that of the tree:

* `inclusion := sum | inclusion ⊆ sum`
* `sum := product | sum (∪|Δ) product`
* `product := factor | product (∩|-) factor`
* `factor := name | ( inclusion ) | factor ᶜ`

## Main definitions

* `Term` — names of sets under complements and binary operations.
* `Joins` — the binary operations of each level.
* `Term.Written` — the texts of a term at a level, from 1 for inclusions to 4 for factors.
* `Term.instructions` — a term in postfix order.
* `Waiting.Loose` — nothing at the top of a stack binds as tightly as a given level.
-/

namespace DiscreteMath.SetAlgebra

inductive Term where
  | name (letter : String)
  | complement (term : Term)
  | binary (op : Operation) (proper : op ≠ .complement) (left right : Term)
  deriving DecidableEq

/-- The operation joins a phrase of the level and, to its right, one of the next level. -/
inductive Joins : Nat → Operation → Prop
  | subset : Joins 1 .subset
  | union : Joins 2 .union
  | symmetricDifference : Joins 2 .symmetricDifference
  | intersection : Joins 3 .intersection
  | difference : Joins 3 .difference

theorem Joins.eq_precedence {level : Nat} {op : Operation} (joins : Joins level op) :
    level = op.precedence := by
  cases joins <;> rfl

theorem joins_precedence {op : Operation} (proper : op ≠ .complement) :
    Joins op.precedence op := by
  cases op with
  | complement => exact absurd rfl proper
  | subset => exact .subset
  | union => exact .union
  | symmetricDifference => exact .symmetricDifference
  | intersection => exact .intersection
  | difference => exact .difference

namespace Term

/-- The tokens write the term, and outside of parentheses they have no operation of a lower level.
Operations of one level group to the left. -/
inductive Written : Nat → Term → List Token → Prop
  | name (level : Nat) (letter : String) : Written level (.name letter) [.name letter]
  | parentheses (level : Nat) {t : Term} {tokens : List Token} :
      Written 1 t tokens → Written level t (.opening :: tokens ++ [.closing])
  | complement {level : Nat} {t : Term} {tokens : List Token} :
      level ≤ 4 → Written 4 t tokens →
      Written level (.complement t) (tokens ++ [.operation .complement])
  | binary {level own : Nat} {op : Operation} (joins : Joins own op) (proper : op ≠ .complement)
      {l r : Term} {left right : List Token} :
      level ≤ own → Written own l left → Written (own + 1) r right →
      Written level (.binary op proper l r) (left ++ .operation op :: right)

def names : Term → List String
  | name letter => [letter]
  | complement t => t.names
  | binary _ _ l r => l.names ++ r.names

def instructions : Term → List Instruction
  | name letter => [.push letter]
  | complement t => t.instructions ++ [.apply .complement]
  | binary op _ l r => l.instructions ++ r.instructions ++ [.apply op]

theorem Written.mem_names {level : Nat} {t : Term} {tokens : List Token}
    (written : t.Written level tokens) (letter : String) :
    .name letter ∈ tokens ↔ letter ∈ t.names := by
  induction written <;> simp_all [names]

theorem Written.ne_nil {level : Nat} {t : Term} {tokens : List Token}
    (written : t.Written level tokens) : tokens ≠ [] := by
  cases written <;> simp

end Term

namespace Waiting

/-- No operation at the top of the stack binds at least as tightly as the level. -/
def Loose (level : Nat) : List Waiting → Prop
  | operation top :: _ => top.precedence < level
  | _ => True

theorem Loose.mono {level level' : Nat} {stack : List Waiting} (h : Loose level stack)
    (le : level ≤ level') : Loose level' stack := by
  unfold Loose at h ⊢
  split
  next top below => exact Nat.lt_of_lt_of_le h le
  next => trivial

variable {op : Operation} {pending : List Operation} {stack : List Waiting}

theorem release_of_loose (h : Loose op.precedence stack) : release op stack = ([], stack) := by
  unfold Loose at h
  split at h
  next top below =>
    have tighter : ¬ op.precedence ≤ top.precedence := by omega
    simp [release, tighter]
  next other =>
    cases stack with
    | nil => rfl
    | cons top below =>
      cases top with
      | operation top => exact absurd rfl (other top below)
      | parenthesis => rfl

theorem release_pending (tight : ∀ top ∈ pending, op.precedence ≤ top.precedence)
    (h : Loose op.precedence stack) :
    release op (pending.map .operation ++ stack) = (pending.map .apply, stack) := by
  induction pending with
  | nil => exact release_of_loose h
  | cons top rest ih =>
    have ih := ih fun other member => tight other (List.mem_cons_of_mem top member)
    simp [release, tight top List.mem_cons_self, ih]

theorem close?_pending (pending : List Operation) (stack : List Waiting) :
    close? (pending.map .operation ++ .parenthesis :: stack) =
      some (pending.map .apply, stack) := by
  induction pending with
  | nil => rfl
  | cons top rest ih => simp [close?, ih]

theorem finish?_pending (pending : List Operation) :
    finish? (pending.map .operation) = some (pending.map .apply) := by
  induction pending with
  | nil => rfl
  | cons top rest ih => simp [finish?, ih]

end Waiting

open Waiting

/-- What the tokens of a term do to the stack: some instructions are given out, and operations that
wait for their right operand to end remain on top. -/
theorem postfixFrom?_written {level : Nat} {t : Term} {tokens : List Token}
    (written : t.Written level tokens) :
    ∀ stack, Loose level stack → ∃ (given : List Instruction) (pending : List Operation),
      given ++ pending.map .apply = t.instructions ∧
      (∀ op ∈ pending, level ≤ op.precedence ∧ op ≠ .complement) ∧
      ∀ rest, postfixFrom? stack (tokens ++ rest) =
        (postfixFrom? (pending.map .operation ++ stack) rest).map (given ++ ·) := by
  induction written with
  | name level letter =>
    intro stack _
    exact ⟨[.push letter], [], rfl, by simp, fun rest => by simp [postfixFrom?]⟩
  | parentheses level written ih =>
    intro stack _
    obtain ⟨given, pending, order, -, run⟩ := ih (.parenthesis :: stack) trivial
    refine ⟨given ++ pending.map .apply, [], by simpa using order, by simp, fun rest => ?_⟩
    simp [postfixFrom?, run, close?_pending, Function.comp_def]
  | complement le written ih =>
    intro stack loose
    obtain ⟨given, pending, order, tight, run⟩ := ih stack (loose.mono le)
    have none : pending = [] := by
      refine List.eq_nil_iff_forall_not_mem.mpr fun op member => ?_
      obtain ⟨strong, proper⟩ := tight op member
      cases op <;> simp_all [Operation.precedence]
    subst none
    refine ⟨given ++ [.apply .complement], [], by simp [Term.instructions, ← order], by simp,
      fun rest => ?_⟩
    simp [run, postfixFrom?, Function.comp_def]
  | @binary level own op joins proper l r left right le writtenLeft writtenRight ihLeft ihRight =>
    intro stack loose
    obtain rfl := joins.eq_precedence
    obtain ⟨givenLeft, pendingLeft, orderLeft, tightLeft, runLeft⟩ := ihLeft stack (loose.mono le)
    obtain ⟨givenRight, pendingRight, orderRight, tightRight, runRight⟩ :=
      ihRight (.operation op :: stack) (Nat.lt_succ_self _)
    refine ⟨givenLeft ++ pendingLeft.map .apply ++ givenRight, pendingRight ++ [op], ?_, ?_,
      fun rest => ?_⟩
    · simp [Term.instructions, ← orderLeft, ← orderRight]
    · intro other member
      rcases List.mem_append.mp member with inner | last
      · obtain ⟨tight, other⟩ := tightRight other inner
        exact ⟨by omega, other⟩
      · rw [List.mem_singleton.mp last]
        exact ⟨le, proper⟩
    · have released := release_pending (fun top member => (tightLeft top member).1) (loose.mono le)
      simp [runLeft, postfixFrom?, proper, released, runRight, Function.comp_def]

/-- From every way to write a term comes its postfix order. -/
theorem toPostfix_written {t : Term} {tokens : List Token} (written : t.Written 1 tokens) :
    toPostfix tokens = .ok t.instructions := by
  obtain ⟨given, pending, order, -, run⟩ := postfixFrom?_written written [] trivial
  have run := run []
  simp only [List.append_nil, postfixFrom?, finish?_pending, Option.map_some, order] at run
  simp [toPostfix, run]

end DiscreteMath.SetAlgebra
