import DiscreteMath.Proofs.Sequence.Faults
import DiscreteMath.Proofs.Text.Blanks
import DiscreteMath.Sequence.Terms

/-!
# Checks on the text of a sequence formula

The text is searched for the letter of the index and its parentheses are counted before it is read.
For a text that can be read, the checks tell what the formula is like: it has the letter exactly if
the index occurs in the formula, and its parentheses match.

## Main definitions

* `Formula.mentionsIndex` — the index occurs in the formula.
-/

namespace DiscreteMath.Sequence

open Text

def Formula.mentionsIndex : Formula → Bool
  | number _ _ => false
  | index _ => true
  | negation body _ => mentionsIndex body
  | binary left _ right _ => mentionsIndex left || mentionsIndex right
  | call _ argument _ => mentionsIndex argument

namespace Token

def isOpening : Token → Bool
  | opening => true
  | _ => false

def isClosing : Token → Bool
  | closing => true
  | _ => false

def HasIndexLetter : Token → Prop
  | name letters => 'k' ∈ letters.toList
  | _ => False

end Token

/-! ### Characters and tokens -/

variable {token : Token} {spelling text : List Char} {p : Nat} {found : List (Placed Token)}

theorem Spells.mem_iff (spells : Spells token spelling) :
    'k' ∈ spelling ↔ token.HasIndexLetter := by
  cases spells with
  | name => simp [Token.HasIndexLetter]
  | number _ numerals =>
    refine iff_of_false (fun member => ?_) id
    exact absurd (numerals 'k' member) (by decide)
  | sign listed =>
    revert listed
    simp only [signs, List.mem_cons, List.not_mem_nil, Prod.mk.injEq, or_false]
    rintro (h | h | h | h | h | h | h | h | h) <;> obtain ⟨rfl, rfl⟩ := h <;>
      simp [Token.HasIndexLetter]

theorem Spells.count (spells : Spells token spelling) :
    spelling.count '(' = token.isOpening.toNat ∧ spelling.count ')' = token.isClosing.toNat := by
  have none {accepts : Char → Bool} (all : ∀ c ∈ spelling, accepts c = true) {b : Char}
      (refused : accepts b = false) : spelling.count b = 0 :=
    List.count_eq_zero.mpr fun member => by simp [all b member] at refused
  cases spells with
  | @name c more begins continues =>
    have all : ∀ d ∈ c :: more, Token.continuesName d = true :=
      List.forall_mem_cons.mpr ⟨by simp [Token.continuesName, begins], continues⟩
    exact ⟨none all (by decide), none all (by decide)⟩
  | number _ numerals => exact ⟨none numerals (by decide), none numerals (by decide)⟩
  | sign listed =>
    revert listed
    simp only [signs, List.mem_cons, List.not_mem_nil, Prod.mk.injEq, or_false]
    rintro (h | h | h | h | h | h | h | h | h) <;> obtain ⟨rfl, rfl⟩ := h <;> decide

theorem mem_iff_of_lexes (lexes : Lexes isSpacing Token.start? p text found) :
    'k' ∈ text ↔ ∃ x ∈ found, x.value.HasIndexLetter := by
  induction lexes with
  | nil => simp
  | @skip p c rest found spacing _ ih =>
    have other : 'k' ≠ c := by
      rintro rfl
      cases spacing
    simpa [other] using ih
  | token _ started _ ih =>
    obtain ⟨spelling, split, -, spells⟩ := spells_of_start? started
    rw [split]
    simp [spells.mem_iff, ih]

theorem count_of_lexes (lexes : Lexes isSpacing Token.start? p text found) :
    text.count '(' = found.countP (·.value.isOpening) ∧
      text.count ')' = found.countP (·.value.isClosing) := by
  induction lexes with
  | nil => simp
  | @skip p c rest found spacing _ ih =>
    have other : c ≠ '(' ∧ c ≠ ')' := by
      constructor <;> rintro rfl <;> cases spacing
    simpa [other] using ih
  | token _ started _ ih =>
    obtain ⟨spelling, split, -, spells⟩ := spells_of_start? started
    have counts := spells.count
    rw [split]
    simp only [List.count_append, List.countP_cons, Bool.toNat] at *
    grind

/-! ### Tokens and nodes -/

variable {phrase : Phrase} {t : Formula} {used : List (Placed Token)} {letters : String}

theorem mentionsIndex_iff : t.mentionsIndex = true ↔ ∃ p, ⟨.name indexName, p⟩ ∈ t.lexemes := by
  induction t with
  | number x p => simp [Formula.mentionsIndex, Formula.lexemes]
  | index p => simp [Formula.mentionsIndex, Formula.lexemes]
  | negation body p ih => simp [Formula.mentionsIndex, Formula.lexemes, ih]
  | binary l op r p left right =>
    simp [Formula.mentionsIndex, Formula.lexemes, left, right, exists_or]
  | call f argument p ih =>
    have other := (name_ne_indexName f).symm
    simp [Formula.mentionsIndex, Formula.lexemes, ih, other]

/-- The names of a formula are the index and functions. -/
theorem eq_of_mem_lexemes (member : ⟨.name letters, p⟩ ∈ t.lexemes) :
    letters = indexName ∨ ∃ f : Function, letters = f.name := by
  induction t with
  | number | index | negation | binary | call => grind [Formula.lexemes]

/-- No name is left out of the formula. -/
theorem Yields.mem_lexemes (yields : Yields phrase t used) (member : ⟨.name letters, p⟩ ∈ used) :
    ⟨.name letters, p⟩ ∈ t.lexemes := by
  induction yields with
  | chain production repetitions _ _ _ first operands =>
    rw [lexemes_grouped]
    rw [repeated] at member
    grind
  | minus | plus | call | parentheses => grind [Formula.lexemes]
  | power _ ih | base _ ih => exact ih member
  | exponent p _ _ first second => grind [Formula.lexemes]
  | number | index => exact member

/-- Parentheses are opened as often as they are closed. -/
theorem Yields.countP_eq (yields : Yields phrase t used) :
    used.countP (·.value.isOpening) = used.countP (·.value.isClosing) := by
  induction yields with
  | chain production repetitions _ _ _ first operands =>
    rw [repeated, List.countP_append, List.countP_append, first, List.countP_flatMap,
      List.countP_flatMap]
    refine congrArg (_ + List.sum ·) (List.map_congr_left fun next member => ?_)
    simp only [Function.comp, List.countP_cons, operands next member]
    rfl
  | power _ ih | base _ ih => exact ih
  | minus | plus | exponent | number | index | call | parentheses =>
    simp only [List.countP_append, List.countP_cons, List.countP_nil]
    grind [Token.isOpening, Token.isClosing]

/-! ### Compiling -/

/-- A text compiles if it passes the checks and can be read. -/
theorem compile_eq_ok {text : List Char} : compile text = .ok t ↔
    (trim text ≠ [] ∧ 'k' ∈ text ∧ text.count '(' = text.count ')') ∧
      Formula.read text = .ok t := by
  rw [compile]
  split
  next blank => simp [List.isEmpty_iff.mp blank]
  next some =>
    split
    next absent => simp_all
    next letter =>
      split
      next odd => simp [odd]
      next even =>
        have checked : trim text ≠ [] ∧ 'k' ∈ text ∧ text.count '(' = text.count ')' := by
          simp_all
        split <;> simp_all

theorem not_mem_name (f : Function) : 'k' ∉ f.name.toList := by
  cases f <;> decide

/-- For a text that can be read, the checks tell whether the index occurs, and never fail else. -/
theorem checks_of_read {text : List Char} (read : Formula.read text = .ok t) :
    ('k' ∈ text ↔ t.mentionsIndex = true) ∧ text.count '(' = text.count ')' := by
  obtain ⟨found, lexed, yields⟩ := exists_of_read read
  have lexes := tokensOrStray_pieces.mp lexed
  obtain ⟨opened, closed⟩ := count_of_lexes lexes
  refine ⟨?_, by rw [opened, closed, yields.countP_eq]⟩
  rw [mem_iff_of_lexes lexes, mentionsIndex_iff]
  constructor
  · rintro ⟨⟨token, p⟩, member, letter⟩
    cases token with
    | name letters =>
      have node := yields.mem_lexemes member
      rcases eq_of_mem_lexemes node with rfl | ⟨f, rfl⟩
      · exact ⟨p, node⟩
      · exact absurd letter (not_mem_name f)
    | number | operation | opening | closing => exact letter.elim
  · rintro ⟨p, node⟩
    exact ⟨_, yields.sublist.subset node, List.mem_singleton_self 'k'⟩

theorem trim_ne_nil {text : List Char} (letter : 'k' ∈ text) : trim text ≠ [] := by
  rw [ne_eq, trim_eq_nil_iff]
  exact List.ne_nil_of_mem (List.mem_filter.mpr ⟨letter, by decide⟩)

/-- A text compiles to a formula exactly if it is read as the formula and the index occurs in it. A
text that is read as such a formula passes each of the three checks, and one that is read as a
formula without the index does not have the letter of the index. -/
theorem compile_eq_ok_iff (text : List Char) (t : Formula) :
    (compile text = .ok t ↔ Formula.read text = .ok t ∧ t.mentionsIndex = true) ∧
      (Formula.read text = .ok t →
        (t.mentionsIndex = true → trim text ≠ [] ∧ 'k' ∈ text ∧
          text.count '(' = text.count ')') ∧
        (t.mentionsIndex = false → 'k' ∉ text)) := by
  have passes (read : Formula.read text = .ok t) (index : t.mentionsIndex = true) :
      trim text ≠ [] ∧ 'k' ∈ text ∧ text.count '(' = text.count ')' := by
    obtain ⟨letter, counts⟩ := checks_of_read read
    have letter := letter.mpr index
    exact ⟨trim_ne_nil letter, letter, counts⟩
  refine ⟨⟨fun compiled => ?_, fun ⟨read, index⟩ => ?_⟩, fun read => ⟨passes read, ?_⟩⟩
  · obtain ⟨⟨-, letter, -⟩, read⟩ := compile_eq_ok.mp compiled
    exact ⟨read, (checks_of_read read).1.mp letter⟩
  · exact compile_eq_ok.mpr ⟨passes read index, read⟩
  · intro constant letter
    have index := (checks_of_read read).1.mp letter
    rw [constant] at index
    cases index

/-- `tan(k)-k` passes the checks. `sin(0)` can be read, but it does not have the index. -/
theorem compile_tangent :
    (∃ t, Formula.read "tan(k)-k".toList = .ok t ∧ t.mentionsIndex = true ∧
      trim "tan(k)-k".toList ≠ [] ∧ 'k' ∈ "tan(k)-k".toList ∧
      "tan(k)-k".toList.count '(' = "tan(k)-k".toList.count ')' ∧
      compile "tan(k)-k".toList = .ok t) ∧
    ∃ t, Formula.read "sin(0)".toList = .ok t ∧ t.mentionsIndex = false ∧
      'k' ∉ "sin(0)".toList ∧ compile "sin(0)".toList ≠ .ok t := by
  have tangent : Formula.read "tan(k)-k".toList =
      .ok (.binary (.call .tan (.index 5) 1) .sub (.index 8) 7) := by cbv
  have sine : Formula.read "sin(0)".toList = .ok (.call .sin (.number 0 5) 1) := by cbv
  obtain ⟨compiles, checks⟩ := compile_eq_ok_iff "tan(k)-k".toList
    (.binary (.call .tan (.index 5) 1) .sub (.index 8) 7)
  obtain ⟨refused, constant⟩ := compile_eq_ok_iff "sin(0)".toList (.call .sin (.number 0 5) 1)
  obtain ⟨some, letter, even⟩ := (checks tangent).1 rfl
  refine ⟨⟨_, tangent, rfl, some, letter, even, compiles.mpr ⟨tangent, rfl⟩⟩,
    _, sine, rfl, (constant sine).2 rfl, fun compiled => ?_⟩
  cases (refused.mp compiled).2

end DiscreteMath.Sequence
