import DiscreteMath.Proofs.Text.Places
import DiscreteMath.Sequence.Token
import Mathlib

/-!
# The spellings of the tokens of sequence formulas

What a token begins with is one of its spellings: the characters of a name, a number literal or a
sign.

## Main definitions

* `Spells` — the characters spell the token.
* `Numeric` — the characters stand at the front of a text and belong to number literals.
-/

namespace DiscreteMath.Sequence

open Text

def signs : List (Token × List Char) :=
  [(.operation .add, ['+']), (.operation .sub, ['-']), (.operation .mul, ['*']),
    (.operation .div, ['/']), (.operation .rem, ['%']), (.operation .pow, ['^']),
    (.operation .pow, ['*', '*']), (.opening, ['(']), (.closing, [')'])]

def isNumeral (c : Char) : Bool := c.isDigit || ['.', 'e', 'E', '+', '-'].contains c

inductive Spells : Token → List Char → Prop
  | name {c : Char} {more : List Char} : Token.beginsName c = true →
      (∀ d ∈ more, Token.continuesName d = true) →
      Spells (.name (String.ofList (c :: more))) (c :: more)
  | number {literal : List Char} {value : Float} : literal ≠ [] →
      (∀ c ∈ literal, isNumeral c = true) → Number.number? literal = some value →
      Spells (.number value) literal
  | sign {token : Token} {text : List Char} : (token, text) ∈ signs → Spells token text

/-! ### Number literals -/

/-- The characters stand at the front of the text and belong to number literals. -/
structure Numeric (part text : List Char) : Prop where
  front : part <+: text
  numerals : ∀ c ∈ part, isNumeral c = true

namespace Numeric

variable {part more text : List Char} {c : Char}

theorem nil : Numeric [] text := ⟨List.nil_prefix, nofun⟩

theorem cons (numeral : isNumeral c = true) (h : Numeric part text) :
    Numeric (c :: part) (c :: text) :=
  ⟨(List.prefix_cons_inj c).mpr h.front, List.forall_mem_cons.mpr ⟨numeral, h.numerals⟩⟩

theorem append (h : Numeric part text) (later : Numeric more (text.drop part.length)) :
    Numeric (part ++ more) text := by
  obtain ⟨rest, rfl⟩ := h.front
  rw [List.drop_left] at later
  refine ⟨(List.prefix_append_right_inj part).mpr later.front, fun c member => ?_⟩
  rcases List.mem_append.mp member with first | second
  · exact h.numerals c first
  · exact later.numerals c second

theorem digits (text : List Char) : Numeric (text.takeWhile Char.isDigit) text := by
  refine ⟨List.takeWhile_prefix _, fun c member => ?_⟩
  have digit : c.isDigit = true := List.all_eq_true.mp List.all_takeWhile c member
  simp [isNumeral, digit]

theorem sign (text : List Char) :
    Numeric ((text.take 1).filter fun s => s == '+' || s == '-') text := by
  cases text with
  | nil => exact nil
  | cons c rest =>
    by_cases sign : c = '+' ∨ c = '-'
    · have numeral : isNumeral c = true := by rcases sign with rfl | rfl <;> rfl
      simpa [sign] using cons numeral nil
    · simpa [sign] using nil

theorem fractionPart (text : List Char) : Numeric (Token.fractionPart text) text := by
  unfold Token.fractionPart
  split
  next rest =>
    dsimp only
    split
    · exact nil
    · exact cons rfl (digits rest)
  next => exact nil

theorem exponentPart (text : List Char) : Numeric (Token.exponentPart text) text := by
  cases text with
  | nil => exact nil
  | cons c rest =>
    rw [Token.exponentPart]
    split
    next letter =>
      have numeral : isNumeral c = true := by
        simp only [Bool.or_eq_true, beq_iff_eq] at letter
        rcases letter with rfl | rfl <;> rfl
      dsimp only
      split
      · exact nil
      · exact cons numeral ((sign rest).append (digits _))
    next => exact nil

theorem numberPart (text : List Char) : Numeric (Token.numberPart text) text := by
  unfold Token.numberPart
  dsimp only
  split
  · exact nil
  · exact ((digits text).append (fractionPart _)).append (exponentPart _)

end Numeric

/-! ### Tokens -/

variable {token : Token} {spelling : List Char}

theorem Spells.ne_nil (h : Spells token spelling) : spelling ≠ [] := by
  cases h with
  | name => exact List.cons_ne_nil _ _
  | number some => exact some
  | sign listed =>
    rintro rfl
    simp [signs] at listed

/-- What a token begins with is one of its spellings. -/
theorem spells_of_start? {c : Char} {rest : List Char} {more : Nat}
    (h : Token.start? c rest = some (token, more)) :
    ∃ spelling, c :: rest = spelling ++ rest.drop more ∧ spelling.length = more + 1 ∧
      Spells token spelling := by
  unfold Token.start? at h
  split at h
  next begins =>
    simp only [Option.some.injEq, Prod.mk.injEq] at h
    obtain ⟨rfl, rfl⟩ := h
    have run : ∀ d ∈ rest.takeWhile Token.continuesName, Token.continuesName d = true :=
      List.all_eq_true.mp List.all_takeWhile
    obtain ⟨after, split⟩ := List.takeWhile_prefix Token.continuesName (l := rest)
    refine ⟨c :: rest.takeWhile Token.continuesName, ?_, rfl, .name begins run⟩
    have left := congrArg (List.drop (rest.takeWhile Token.continuesName).length) split
    rw [List.drop_left] at left
    rw [← left, List.cons_append, split]
  next =>
    split at h
    next =>
      simp only [Option.map_eq_some_iff, Prod.mk.injEq] at h
      obtain ⟨value, read, rfl, rfl⟩ := h
      have some : Token.numberPart (c :: rest) ≠ [] := by
        intro none
        rw [none] at read
        cases read
      obtain ⟨⟨after, split⟩, numerals⟩ := Numeric.numberPart (c :: rest)
      generalize Token.numberPart (c :: rest) = literal at *
      obtain ⟨d, digits, rfl⟩ := List.exists_cons_of_ne_nil some
      cases split
      exact ⟨c :: digits, by simp, rfl, .number some numerals read⟩
    next =>
      split at h
      all_goals cases h
      all_goals first
        | exact ⟨[_], rfl, rfl, .sign (by simp [signs])⟩
        | exact ⟨[_, _], rfl, rfl, .sign (by simp [signs])⟩

end DiscreteMath.Sequence
