import DiscreteMath.Proofs.Proposition.Subformula
import DiscreteMath.Proposition.TruthTable

/-!
# Groups in parentheses

The scan of a text for its groups gives, for every closing parenthesis in turn, what stands between
it and the matching opening one. If the text is that of a formula, each group is that of a
subformula.

## Main definitions

* `Matched` — the parentheses of a text match.
* `Closes` — a group ends before an index.
* `Opened` — what has been read since each parenthesis that is still open.
-/

namespace DiscreteMath.Proposition

open Text

theorem groups_opening (opened : List (List Char)) (rest : List Char) :
    groups opened ('(' :: rest) = groups ([] :: opened.map ('(' :: ·)) rest := by
  rw [groups.eq_def]
  rfl

theorem groups_closing (inner : List Char) (outer : List (List Char)) (rest : List Char) :
    groups (inner :: outer) (')' :: rest) =
      inner.reverse :: groups (outer.map (')' :: ·)) rest := by
  rw [groups.eq_def]
  rfl

theorem groups_other {c : Char} (noOpening : c ≠ '(') (noClosing : c ≠ ')')
    (opened : List (List Char)) (rest : List Char) :
    groups opened (c :: rest) = groups (opened.map (c :: ·)) rest := by
  rw [groups.eq_def]
  simp only [noOpening, noClosing, if_false]

/-- As many parentheses are closed as are opened, and never more. -/
abbrev Matched (text : List Char) : Prop := Balanced (· == '(') (· == ')') text

/-- The closing parenthesis of index `j` ends the group. -/
def Closes (text : List Char) (j : Nat) (inner : List Char) : Prop :=
  Matched inner ∧ ∃ before, text.take j = before ++ '(' :: inner

/-- What has been read since each parenthesis of the text that is still open, reversed. -/
inductive Opened : List Char → List (List Char) → Prop
  | closed {text : List Char} : Matched text → Opened text []
  | group {outer inner : List Char} {opened : List (List Char)} :
      Opened outer opened → Matched inner →
      Opened (outer ++ '(' :: inner)
        (inner.reverse :: opened.map fun content => inner.reverse ++ '(' :: content)

namespace Opened

variable {front : List Char} {opened : List (List Char)}

theorem append (h : Opened front opened) {text : List Char} (matched : Matched text) :
    Opened (front ++ text) (opened.map (text.reverse ++ ·)) := by
  cases h with
  | closed closed => exact .closed (closed.append matched)
  | @group outer inner opened h inside =>
    have whole := Opened.group h (inside.append matched)
    simpa [Function.comp_def] using whole

theorem opening (h : Opened front opened) :
    Opened (front ++ ['(']) ([] :: opened.map ('(' :: ·)) := by
  simpa using h.group .nil

theorem other (h : Opened front opened) {c : Char} (noOpening : c ≠ '(') (noClosing : c ≠ ')') :
    Opened (front ++ [c]) (opened.map (c :: ·)) :=
  h.append (.single (by simpa using noOpening) (by simpa using noClosing))

/-- What a closing parenthesis does. -/
theorem closing (h : Opened front opened)
    (nonneg : (front ++ [')']).countP (· == ')') ≤ (front ++ [')']).countP (· == '(')) :
    ∃ inner outer, opened = inner.reverse :: outer ∧ Matched inner ∧
      (∃ before, front = before ++ '(' :: inner) ∧
      Opened (front ++ [')']) (outer.map (')' :: ·)) := by
  cases h with
  | closed closed =>
    have even := closed.even
    simp at nonneg
    omega
  | @group outer inner opened h inside =>
    have enclosed : Matched ('(' :: inner ++ [')']) := inside.enclose rfl rfl rfl rfl
    refine ⟨inner, _, rfl, inside, ⟨outer, rfl⟩, ?_⟩
    simpa [Function.comp_def] using h.append enclosed

/-- The scan gives the group of every closing parenthesis in turn. -/
theorem groups_spec {text : List Char} (h : Opened front opened)
    (nonneg : ∀ part, part <+: front ++ text →
      part.countP (· == ')') ≤ part.countP (· == '(')) :
    List.Forall₂ (Closes (front ++ text)) (text.idxsOf ')' front.length)
      (groups opened text) := by
  induction text generalizing front opened with
  | nil => simp [groups]
  | cons c rest ih =>
    have whole : front ++ c :: rest = (front ++ [c]) ++ rest := by simp
    have length : front.length + 1 = (front ++ [c]).length := by simp
    rw [whole] at nonneg ⊢
    rw [List.idxsOf_cons, length]
    by_cases isOpening : c = '('
    · subst isOpening
      rw [groups_opening]
      exact ih h.opening nonneg
    by_cases isClosing : c = ')'
    · subst isClosing
      obtain ⟨inner, outer, rfl, matched, ⟨before, split⟩, later⟩ :=
        h.closing (nonneg _ (List.prefix_append _ _))
      rw [groups_closing, List.reverse_reverse, if_pos (beq_self_eq_true _)]
      refine .cons ⟨matched, before, ?_⟩ (ih later nonneg)
      rw [← split, List.append_assoc]
      exact List.take_left
    · rw [groups_other isOpening isClosing, if_neg (by simpa using isClosing)]
      exact ih (h.other isOpening isClosing) nonneg

end Opened

/-! ### Texts and their tokens -/

/-- The text has as many parentheses of each kind as the tokens. -/
def Alike (text : List Char) (found : List (Placed Token)) : Prop :=
  text.countP (· == '(') = found.countP isOpening ∧ text.countP (· == ')') = found.countP isClosing

theorem Alike.append {text more : List Char} {found others : List (Placed Token)}
    (first : Alike text found) (second : Alike more others) :
    Alike (text ++ more) (found ++ others) := by
  simp only [Alike, List.countP_append, first.1, first.2, second.1, second.2, and_self]

theorem alike_nil : Alike [] [] := ⟨rfl, rfl⟩

theorem alike_of_none {text : List Char} (h : ∀ c ∈ text, (c == '(') = false ∧ (c == ')') = false) :
    Alike text [] := by
  simp only [Alike, List.countP_nil, List.countP_eq_zero]
  exact ⟨fun c member => by simp [(h c member).1], fun c member => by simp [(h c member).2]⟩

theorem alike_spacing {c : Char} (spacing : isSpacing c = true) : Alike [c] [] := by
  refine alike_of_none fun d member => ?_
  obtain rfl := List.mem_singleton.mp member
  constructor
  · refine beq_eq_false_iff_ne.mpr ?_
    rintro rfl
    simp [isSpacing] at spacing
  · refine beq_eq_false_iff_ne.mpr ?_
    rintro rfl
    simp [isSpacing] at spacing

theorem signs_parentheses : ∀ entry ∈ signs,
    (entry.2.length = 1 ∨ ∀ c ∈ entry.2, (c == '(') = false ∧ (c == ')') = false) ∧
      Alike entry.2 [⟨entry.1, 0⟩] := by
  have table : ∀ entry ∈ signs,
      (entry.2.length = 1 ∨ entry.2.all (fun c => c != '(' && c != ')') = true) ∧
        entry.2.countP (· == '(') = [⟨entry.1, 0⟩].countP isOpening ∧
        entry.2.countP (· == ')') = [⟨entry.1, 0⟩].countP isClosing := by decide
  intro entry listed
  obtain ⟨alone, alike⟩ := table entry listed
  exact ⟨alone.imp_right fun none => by simpa using none, alike⟩

section Spellings

variable {token : Token} {spelling : List Char}

theorem Spells.alike (spells : Spells token spelling) (p : Nat) :
    Alike spelling [⟨token, p⟩] ∧
      ∀ part, part <+: spelling → ∃ x, x <+: [⟨token, p⟩] ∧ Alike part x := by
  have none (h : ∀ c ∈ spelling, (c == '(') = false ∧ (c == ')') = false) :
      ∀ part, part <+: spelling → ∃ x, x <+: [⟨token, p⟩] ∧ Alike part x :=
    fun part h' => ⟨[], List.nil_prefix, alike_of_none fun c member => h c (h'.subset member)⟩
  cases spells with
  | @name letters some run =>
    have other : ∀ c ∈ spelling, (c == '(') = false ∧ (c == ')') = false := by
      intro c member
      constructor
      all_goals
        refine beq_eq_false_iff_ne.mpr ?_
        rintro rfl
        exact absurd (run _ member) (by decide)
    exact ⟨alike_of_none other, none other⟩
  | sign listed =>
    obtain ⟨alone, alike⟩ := signs_parentheses _ listed
    refine ⟨alike, alone.elim (fun length part h => ?_) none⟩
    obtain ⟨c, rfl⟩ := List.length_eq_one_iff.mp length
    rcases List.prefix_cons_iff.mp h with rfl | ⟨rest, rfl, h'⟩
    · exact ⟨[], List.nil_prefix, alike_nil⟩
    · obtain rfl := List.prefix_nil.mp h'
      exact ⟨_, List.prefix_rfl, alike⟩

end Spellings

namespace Reads

variable {p : Nat} {text : List Char} {found : List (Placed Token)}

theorem alike (reads : Reads p text found) : Alike text found := by
  induction reads using Reads.induction with
  | nil p => exact alike_nil
  | skip p c rest found spacing _ ih => exact (alike_spacing spacing).append ih
  | spelled p token spelling rest found spells _ _ ih => exact (spells.alike p).1.append ih

/-- For every part of the text from its beginning there is one of the tokens. -/
theorem exists_tokens (reads : Reads p text found) :
    ∀ part, part <+: text → ∃ x, x <+: found ∧ Alike part x := by
  induction reads using Reads.induction with
  | nil p =>
    intro part h
    obtain rfl := List.prefix_nil.mp h
    exact ⟨[], List.nil_prefix, alike_nil⟩
  | skip p c rest found spacing _ ih =>
    intro part h
    rcases List.prefix_cons_iff.mp h with rfl | ⟨part, rfl, h'⟩
    · exact ⟨[], List.nil_prefix, alike_nil⟩
    · obtain ⟨x, inside, alike⟩ := ih part h'
      exact ⟨x, inside, (alike_spacing spacing).append alike⟩
  | spelled p token spelling rest found spells _ _ ih =>
    rintro part ⟨back, split⟩
    obtain ⟨whole, parts⟩ := spells.alike p
    rcases List.append_eq_append_iff.mp split with ⟨more, rfl, -⟩ | ⟨part, rfl, rfl⟩
    · obtain ⟨x, inside, alike⟩ := parts part (List.prefix_append _ _)
      exact ⟨x, inside.trans (List.prefix_append [_] found), alike⟩
    · obtain ⟨x, inside, alike⟩ := ih part (List.prefix_append _ _)
      exact ⟨⟨token, p⟩ :: x, List.cons_prefix_cons.mpr ⟨rfl, inside⟩, whole.append alike⟩

/-- For every part of the tokens from their beginning there is one of the text. -/
theorem exists_text (reads : Reads p text found) :
    ∀ x, x <+: found → ∃ part, part <+: text ∧ Alike part x := by
  induction reads using Reads.induction with
  | nil p =>
    intro x h
    obtain rfl := List.prefix_nil.mp h
    exact ⟨[], List.nil_prefix, alike_nil⟩
  | skip p c rest found spacing _ ih =>
    intro x h
    obtain ⟨part, inside, alike⟩ := ih x h
    exact ⟨c :: part, List.cons_prefix_cons.mpr ⟨rfl, inside⟩, (alike_spacing spacing).append alike⟩
  | spelled p token spelling rest found spells _ _ ih =>
    intro x h
    rcases List.prefix_cons_iff.mp h with rfl | ⟨x, rfl, h'⟩
    · exact ⟨[], List.nil_prefix, alike_nil⟩
    · obtain ⟨part, inside, alike⟩ := ih x h'
      exact ⟨spelling ++ part, (List.prefix_append_right_inj spelling).mpr inside,
        (spells.alike p).1.append alike⟩

theorem balanced_iff (reads : Reads p text found) :
    Balanced isOpening isClosing found ↔ Matched text := by
  obtain ⟨opening, closing⟩ := reads.alike
  constructor
  · intro balanced
    refine ⟨by rw [opening, closing, balanced.even], fun part h => ?_⟩
    obtain ⟨x, inside, opens, closes⟩ := reads.exists_tokens part h
    rw [opens, closes]
    exact balanced.nonneg x inside
  · intro matched
    refine ⟨by rw [← opening, ← closing, matched.even], fun x h => ?_⟩
    obtain ⟨part, inside, opens, closes⟩ := reads.exists_text x h
    rw [← opens, ← closes]
    exact matched.nonneg part inside

end Reads

theorem closes_groups {text : List Char} (matched : Matched text) :
    List.Forall₂ (Closes text) (text.idxsOf ')') (groups [] text) :=
  have start : Opened [] [] := .closed .nil
  start.groups_spec matched.nonneg

/-! ### Groups of a formula -/

/-- A character that is a sign of its own and occurs in no other spelling. -/
theorem Spells.eq_of_mem {b : Char} {bracket : Token} (other : isLetter b = false)
    (table : ∀ entry ∈ signs, b ∈ entry.2 → entry.2 = [b] ∧ entry.1 = bracket) {token : Token}
    {spelling : List Char} (spells : Spells token spelling) (member : b ∈ spelling) :
    spelling = [b] ∧ token = bracket := by
  cases spells with
  | name _ run =>
    have letter := run b member
    rw [other] at letter
    cases letter
  | sign listed => exact table _ listed member

/-- A group of the text of a formula is the text of a subformula, at the places of the group. -/
theorem read_group {text : List Char} {t : Formula} (read : Formula.read text = .ok t)
    {before inner after : List Char} (split : text = before ++ '(' :: (inner ++ ')' :: after))
    (matched : Matched inner) :
    ∃ u, Formula.read inner = .ok u ∧ (u.move (· + (before.length + 1))).Part t := by
  obtain ⟨found, lexed, derives⟩ := read_eq_ok_iff.mp read
  have reads := tokens_eq_ok_iff.mp lexed
  rw [split] at reads
  have opening {token : Token} {spelling : List Char} (spells : Spells token spelling) :
      '(' ∈ spelling → spelling = ['('] ∧ token = .opening :=
    spells.eq_of_mem (by decide) (by decide)
  have closing {token : Token} {spelling : List Char} (spells : Spells token spelling) :
      ')' ∈ spelling → spelling = [')'] ∧ token = .closing :=
    spells.eq_of_mem (by decide) (by decide)
  obtain ⟨first, second, rfl, -, later⟩ := reads.cut (by decide) opening
  obtain ⟨middle, last, rfl, inside, -⟩ := later.cut (by decide) closing
  obtain ⟨s, derived, part⟩ := derives.exists_part (inside.balanced_iff.mpr matched) rfl
  rw [Nat.add_assoc] at inside
  have moved := derived.move (· - (before.length + 1))
  have back : (middle.map (·.move (· - (before.length + 1)))).map
      (·.move (· + (before.length + 1))) = middle := by
    rw [List.map_map]
    refine (List.map_congr_left fun x member => ?_).trans (List.map_id middle)
    have := inside.le_position x member
    have place : x.position - (before.length + 1) + (before.length + 1) = x.position := by omega
    simp only [Function.comp_apply, Placed.move, place, id]
  have same := (moved.move (· + (before.length + 1)))
  rw [back] at same
  refine ⟨_, read_eq_ok_iff.mpr ⟨_, tokens_eq_ok_iff.mpr inside.unshift, moved⟩, ?_⟩
  rwa [same.unique derived]

/-- The place of a character of a text after the blanks have been left out. -/
def compactPlace (text : List Char) (q : Nat) : Nat := Reads.placeFrom 1 1 text q

/-- The text of a formula can be read without its blanks. -/
theorem read_compact {text : List Char} {t : Formula} (read : Formula.read text = .ok t) :
    Formula.read (compact text) = .ok (t.move (compactPlace text)) := by
  obtain ⟨found, lexed, derives⟩ := read_eq_ok_iff.mp read
  have reads := (tokens_eq_ok_iff.mp lexed).compact derives.separate 1
  exact read_eq_ok_iff.mpr ⟨_, tokens_eq_ok_iff.mpr reads, derives.move _⟩

end DiscreteMath.Proposition
