import DiscreteMath.Proofs.Proposition.Grammar
import DiscreteMath.Proofs.Proposition.Lexing
import DiscreteMath.Proofs.Text.Parentheses

/-!
# Subformulas and the tokens they are read from

The value of a formula depends on the values of its variables and not on the places of its nodes.
Where tokens derive a formula, those between two matching parentheses derive a subformula of it.

## Main definitions

* `Formula.names` — the variables, in the order of their occurrence.
* `Formula.holds` — the value under a total valuation.
* `Formula.move` — the same formula with other places.
* `Formula.Part` — the subformulas.
-/

namespace DiscreteMath.Proposition

open Text

namespace Formula

def names : Formula → List String
  | atom name _ => [name]
  | negation body _ => body.names
  | binary left _ right _ => left.names ++ right.names

def holds (v : String → Bool) : Formula → Bool
  | atom name _ => v name
  | negation body _ => !body.holds v
  | binary left c right _ => c.apply (left.holds v) (right.holds v)

def move (f : Nat → Nat) : Formula → Formula
  | atom name p => atom name (f p)
  | negation body p => negation (body.move f) (f p)
  | binary left c right p => binary (left.move f) c (right.move f) (f p)

inductive Part : Formula → Formula → Prop
  | refl (t : Formula) : Part t t
  | negation {s t : Formula} (p : Nat) : Part s t → Part s (negation t p)
  | left {s t : Formula} (c : Connective) (r : Formula) (p : Nat) :
      Part s t → Part s (binary t c r p)
  | right {s t : Formula} (l : Formula) (c : Connective) (p : Nat) :
      Part s t → Part s (binary l c t p)

theorem evaluate_eq {t : Formula} {valuation : String → Option Bool} {v : String → Bool}
    (bound : ∀ name ∈ t.names, valuation name = some (v name)) :
    t.evaluate valuation = .ok (t.holds v) := by
  induction t with
  | atom name p => simp [evaluate, holds, bound name (by simp [names])]
  | negation body p ih =>
    simp only [evaluate, ih bound, holds]
    rfl
  | binary l c r p ihLeft ihRight =>
    have left := ihLeft fun name member => bound name (by simp [names, member])
    have right := ihRight fun name member => bound name (by simp [names, member])
    simp only [evaluate, left, right, holds]
    rfl

@[simp] theorem names_move (f : Nat → Nat) (t : Formula) : (t.move f).names = t.names := by
  induction t <;> simp_all [move, names]

@[simp] theorem holds_move (f : Nat → Nat) (v : String → Bool) (t : Formula) :
    (t.move f).holds v = t.holds v := by
  induction t <;> simp_all [move, holds]

theorem Part.names_subset {s t : Formula} (part : s.Part t) : s.names ⊆ t.names := by
  induction part <;> grind [names]

/-- A subformula of a moved formula is a moved subformula. -/
theorem Part.exists_of_move {f : Nat → Nat} {s t : Formula} (part : s.Part (t.move f)) :
    ∃ s' : Formula, s'.Part t ∧ s'.move f = s := by
  induction t with
  | atom name p =>
    cases part
    exact ⟨.atom name p, .refl _, rfl⟩
  | negation body p ih =>
    cases part with
    | refl => exact ⟨.negation body p, .refl _, rfl⟩
    | negation _ inner =>
      obtain ⟨s', part, same⟩ := ih inner
      exact ⟨s', .negation p part, same⟩
  | binary l c r p ihLeft ihRight =>
    cases part with
    | refl => exact ⟨.binary l c r p, .refl _, rfl⟩
    | left _ _ _ inner =>
      obtain ⟨s', part, same⟩ := ihLeft inner
      exact ⟨s', .left c r p part, same⟩
    | right _ _ _ inner =>
      obtain ⟨s', part, same⟩ := ihRight inner
      exact ⟨s', .right l c p part, same⟩

end Formula

namespace Derives

variable {level : Option Connective} {t : Formula} {tokens : List (Placed Token)}

theorem move (derives : Derives level t tokens) (f : Nat → Nat) :
    Derives level (t.move f) (tokens.map (·.move f)) := by
  induction derives with
  | name letters p => exact .name letters (f p)
  | negation p _ ih => exact .negation (f p) ih
  | parentheses p q _ ih =>
    simpa [Placed.move, Formula.move] using Derives.parentheses (f p) (f q) ih
  | operand _ ih => exact .operand ih
  | left other p _ _ ihLeft ihRight =>
    simpa [Placed.move, Formula.move] using Derives.left other (f p) ihLeft ihRight
  | right p _ _ ihLeft ihRight =>
    simpa [Placed.move, Formula.move] using Derives.right (f p) ihLeft ihRight

/-- The variables of a formula are the names among its tokens. -/
theorem names_eq (derives : Derives level t tokens) :
    tokens.filterMap (·.value.name?) = t.names := by
  induction derives <;> simp_all [Formula.names, Token.name?]

/-- No two names are neighbours among the tokens of a formula. -/
theorem separate (derives : Derives level t tokens) : Separate tokens := by
  induction derives with
  | name letters p => exact List.isChain_singleton _
  | negation p _ ih =>
    exact List.isChain_cons.mpr ⟨fun _ _ => .inl rfl, ih⟩
  | parentheses p q _ ih =>
    refine List.isChain_append.mpr ⟨List.isChain_cons.mpr ⟨fun _ _ => .inl rfl, ih⟩,
      List.isChain_singleton _, fun x _ y last => ?_⟩
    cases last
    exact .inr rfl
  | operand _ ih => exact ih
  | left other p _ _ ihLeft ihRight | right p _ _ ihLeft ihRight =>
    refine List.isChain_append.mpr ⟨ihLeft, List.isChain_cons.mpr ⟨fun _ _ => .inl rfl, ihRight⟩,
      fun x _ y first => ?_⟩
    cases first
    exact .inr rfl

end Derives

/-! ### Parentheses -/

def isOpening (x : Placed Token) : Bool := x.value = .opening

def isClosing (x : Placed Token) : Bool := x.value = .closing

theorem isClosing_of_isOpening (x : Placed Token) (h : isOpening x = true) :
    isClosing x = false := by
  simp_all [isOpening, isClosing]

namespace Derives

variable {level : Option Connective} {t : Formula} {tokens : List (Placed Token)}

theorem balanced (derives : Derives level t tokens) : Balanced isOpening isClosing tokens := by
  induction derives with
  | name letters p => exact .single rfl rfl
  | negation p _ ih => exact .append (.single rfl rfl) ih
  | parentheses p q _ ih => exact ih.enclose rfl rfl rfl rfl
  | operand _ ih => exact ih
  | left other p _ _ ihLeft ihRight | right p _ _ ihLeft ihRight =>
    exact ihLeft.append (.append (.single rfl rfl) ihRight)

/-- The tokens between two matching parentheses derive a subformula. -/
theorem exists_part (derives : Derives level t tokens) {before inner after : List (Placed Token)}
    {p q : Nat} (balanced : Balanced isOpening isClosing inner)
    (split : tokens = before ++ ⟨.opening, p⟩ :: (inner ++ ⟨.closing, q⟩ :: after)) :
    ∃ s, Derives (some .or) s inner ∧ s.Part t := by
  induction derives generalizing before after with
  | name letters p' =>
    have member : (⟨.opening, p⟩ : Placed Token) ∈ [⟨.name letters, p'⟩] := by
      rw [split]
      simp
    simp at member
  | negation p' _ ih =>
    cases before with
    | nil => simp at split
    | cons x before =>
      obtain ⟨s, derives, part⟩ := ih (List.cons.inj split).2
      exact ⟨s, derives, .negation p' part⟩
  | @parentheses p' q' t tokens inside ih =>
    rcases inside.balanced.split_enclosed isClosing_of_isOpening balanced rfl rfl split with
      ⟨-, rfl, -⟩ | ⟨rest, rest', split⟩
    · exact ⟨t, inside, .refl t⟩
    · exact ih split
  | operand _ ih => exact ih split
  | left other p' left right ihLeft ihRight | right p' left right ihLeft ihRight =>
    rcases left.balanced.split_middle isClosing_of_isOpening balanced rfl rfl rfl rfl split with
      ⟨rest, split⟩ | ⟨rest, split⟩
    · obtain ⟨s, derives, part⟩ := ihLeft split
      exact ⟨s, derives, .left _ _ p' part⟩
    · obtain ⟨s, derives, part⟩ := ihRight split
      exact ⟨s, derives, .right _ _ p' part⟩

end Derives

end DiscreteMath.Proposition
