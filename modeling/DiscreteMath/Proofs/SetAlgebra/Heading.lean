import DiscreteMath.Proofs.Text.Blanks
import DiscreteMath.SetAlgebra.Symbolic

/-!
# What a definition begins with

The label of a definition is read off its beginning. A definition that does not begin with `U`, or
in which an operation follows the `U`, never passes for that of the universe, and neither does one
that is composed of it and something else.

## Main definitions

* `Modest` — the definition does not pass for that of the universe.
-/

namespace DiscreteMath.SetAlgebra

open Text

theorem prefix_of_beforeEquals? {text before : List Char} (h : beforeEquals? text = some before) :
    before <+: text := by
  fun_induction beforeEquals? text generalizing before with
  | case1 rest =>
    cases h
    exact List.nil_prefix
  | case2 c rest other ih =>
    obtain ⟨before, found, rfl⟩ := Option.map_eq_some_iff.mp h
    exact List.cons_prefix_cons.mpr ⟨rfl, ih found⟩
  | case3 => cases h

theorem blank_ne {c : Char} (visible : isBlank c = false) : c ≠ ' ' := by
  rintro rfl
  revert visible
  decide

theorem beforeEquals?_cons {c : Char} {rest : List Char} (h : c ≠ ' ' ∨ rest.head? ≠ some '=') :
    beforeEquals? (c :: rest) = (beforeEquals? rest).map (c :: ·) := by
  rw [beforeEquals?.eq_def]
  split
  next same =>
    simp only [List.cons.injEq] at same
    simp [same] at h
  next same =>
    cases same
    rfl
  next same => cases same

/-- The text that the label is trimmed from. -/
def heading (text : List Char) : List Char := (beforeEquals? text).getD text

theorem prefix_heading (text : List Char) : heading text <+: text := by
  unfold heading
  cases found : beforeEquals? text with
  | none => exact List.prefix_rfl
  | some before => exact prefix_of_beforeEquals? found

theorem toList_label (definition : String) :
    (label definition).toList = trim (heading definition.toList) := by
  simp [label, heading]

/-- The text does not pass for the definition of the universe: it does not begin with `U`, or a
sign of an operation follows. -/
def Modest (text : List Char) : Prop :=
  (trim text).head? ≠ some 'U' ∨
    ∃ c rest, text = 'U' :: ' ' :: c :: rest ∧ c ≠ '=' ∧ isBlank c = false

theorem modest_of_head {c : Char} {rest : List Char} (visible : isBlank c = false)
    (other : c ≠ 'U') : Modest (c :: rest) := by
  refine .inl ?_
  simp [head?_trim, visible, other]

theorem Modest.append {text : List Char} (h : Modest text) {c : Char} (visible : isBlank c = false)
    (other : c ≠ 'U') (rest : List Char) : Modest (text ++ ' ' :: c :: rest) := by
  rcases h with head | ⟨d, more, rfl, differs, visible'⟩
  · refine .inl ?_
    rw [head?_trim] at head ⊢
    have blank : isBlank ' ' = true := by decide
    rw [List.dropWhile_append]
    split
    · simp [blank, visible, other]
    next some =>
      cases left : text.dropWhile isBlank with
      | nil => simp [left] at some
      | cons first more => simpa [left] using head
  · exact .inr ⟨d, more ++ ' ' :: c :: rest, rfl, differs, visible'⟩

/-- What is composed of the universe and something else, with an operation between them. -/
theorem modest_of_universe {c : Char} (visible : isBlank c = false) (differs : c ≠ '=')
    (rest : List Char) : Modest ("U".toList ++ ' ' :: c :: rest) :=
  .inr ⟨c, rest, rfl, differs, visible⟩

theorem head?_dropWhile_of_prefix {p : Char → Bool} {text whole : List Char} (h : text <+: whole)
    {c : Char} (head : (text.dropWhile p).head? = some c) : (whole.dropWhile p).head? = some c := by
  obtain ⟨rest, rfl⟩ := h
  rw [List.dropWhile_append]
  cases left : text.dropWhile p with
  | nil => simp [left] at head
  | cons first more => simpa [left] using head

/-- The heading of a text in which no `=` stands after the first blank. -/
theorem heading_cons_blank {c : Char} (differs : c ≠ '=') (visible : isBlank c = false)
    (rest : List Char) :
    ∃ more, heading ('U' :: ' ' :: c :: rest) = 'U' :: ' ' :: c :: more := by
  have space := blank_ne visible
  have letter : 'U' ≠ ' ' := by decide
  unfold heading
  rw [beforeEquals?_cons (.inl letter), beforeEquals?_cons (.inr (by simpa using differs)),
    beforeEquals?_cons (.inl space)]
  cases beforeEquals? rest with
  | none => exact ⟨rest, rfl⟩
  | some before => exact ⟨before, rfl⟩

theorem toList_label_universe {definition : String} {c : Char} {rest : List Char}
    (text : definition.toList = 'U' :: ' ' :: c :: rest) (differs : c ≠ '=')
    (visible : isBlank c = false) :
    ∃ more, (SetAlgebra.label definition).toList = 'U' :: ' ' :: more := by
  obtain ⟨following, heading⟩ := heading_cons_blank differs visible rest
  have letter : isBlank 'U' = false := by decide
  refine ⟨c :: trimEnd following, ?_⟩
  rw [toList_label, text, heading, trim_eq]
  simp [letter, trimEnd_cons, visible]

theorem Modest.label {definition : String} (h : Modest definition.toList) :
    SetAlgebra.label definition ≠ "U" ∧ SetAlgebra.label definition ≠ "Universal" := by
  suffices label : ∀ more, (SetAlgebra.label definition).toList = 'U' :: more →
      more.head? = some ' ' by
    constructor
    · intro same
      simpa using label [] (by rw [same]; rfl)
    · intro same
      simpa using label "niversal".toList (by rw [same]; rfl)
  intro more same
  rw [toList_label] at same
  rcases h with head | ⟨c, rest, text, differs, visible⟩
  · refine absurd ?_ head
    rw [head?_trim]
    refine head?_dropWhile_of_prefix (prefix_heading _) ?_
    rw [← head?_trim, same]
    rfl
  · obtain ⟨following, universal⟩ := toList_label_universe text differs visible
    rw [toList_label, same] at universal
    simp only [List.cons.injEq, true_and] at universal
    rw [universal]
    rfl

/-- The label of a definition that begins with a symbol and `=`, whatever follows. -/
theorem label_of_symbol {definition : String} {c : Char} {rest : List Char}
    (visible : isBlank c = false) (text : definition.toList = c :: ' ' :: '=' :: ' ' :: rest) :
    SetAlgebra.label definition = String.singleton c := by
  have heading : heading definition.toList = [c] := by
    rw [text, SetAlgebra.heading, beforeEquals?_cons (.inl (blank_ne visible))]
    rfl
  refine String.toList_injective ?_
  rw [toList_label, heading, trim_eq]
  simp [visible, trimEnd]

/-- The text begins with a parenthesis, a brace, or `U` and an operation. -/
def Composite (text : List Char) : Prop :=
  (∃ c rest, text = c :: rest ∧ (c = '(' ∨ c = '\x7b')) ∨
    ∃ c rest, text = 'U' :: ' ' :: c :: rest ∧ c ≠ '=' ∧ isBlank c = false

theorem Composite.append {text : List Char} (h : Composite text) (more : List Char) :
    Composite (text ++ more) := by
  rcases h with ⟨c, rest, rfl, sign⟩ | ⟨c, rest, rfl, differs, visible⟩
  · exact .inl ⟨c, rest ++ more, rfl, sign⟩
  · exact .inr ⟨c, rest ++ more, rfl, differs, visible⟩

theorem Composite.modest {text : List Char} (h : Composite text) : Modest text := by
  rcases h with ⟨c, rest, rfl, rfl | rfl⟩ | composed
  · exact modest_of_head (by decide) (by decide)
  · exact modest_of_head (by decide) (by decide)
  · exact .inr composed

/-- The label of such a definition is no single letter. -/
theorem Composite.label {definition : String} (h : Composite definition.toList) {c : Char}
    (label : SetAlgebra.label definition = String.singleton c) : c = '(' ∨ c = '\x7b' := by
  have letter := congrArg String.toList label
  rw [String.toList_singleton] at letter
  rcases h with ⟨first, rest, text, sign⟩ | ⟨second, rest, text, differs, visible⟩
  · have visible : isBlank first = false := by
      rcases sign with rfl | rfl <;> decide
    have heading : ∃ more, heading definition.toList = first :: more := by
      rw [text, SetAlgebra.heading, beforeEquals?_cons (.inl (blank_ne visible))]
      cases beforeEquals? rest with
      | none => exact ⟨rest, rfl⟩
      | some before => exact ⟨before, rfl⟩
    obtain ⟨more, heading⟩ := heading
    rw [toList_label, heading, trim_eq] at letter
    simp only [List.dropWhile_cons, visible, trimEnd_cons, Bool.false_eq_true, and_false, if_false,
      List.cons.injEq] at letter
    rw [← letter.1]
    exact sign
  · obtain ⟨more, universal⟩ := toList_label_universe text differs visible
    rw [letter] at universal
    simp at universal

end DiscreteMath.SetAlgebra
