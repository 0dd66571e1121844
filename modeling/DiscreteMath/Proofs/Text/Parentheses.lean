/-!
# Balanced lists

In a list some elements open and others close, as parentheses do. Where a balanced list stands
between an opening and a closing element of a list that is composed of balanced ones, it lies in one
of them.

## Main definitions

* `Balanced` — as many elements close as open, and never more have closed than opened.
-/

namespace DiscreteMath.Text

structure Balanced (opens closes : α → Bool) (l : List α) : Prop where
  even : l.countP closes = l.countP opens
  nonneg : ∀ front, front <+: l → front.countP closes ≤ front.countP opens

namespace Balanced

variable {opens closes : α → Bool} {l m inner : List α} {o c x : α}

theorem nil : Balanced opens closes [] :=
  ⟨rfl, fun front h => by simp [List.prefix_nil.mp h]⟩

theorem single (noOpening : opens x = false) (noClosing : closes x = false) :
    Balanced opens closes [x] := by
  refine ⟨by simp [noOpening, noClosing], fun front h => ?_⟩
  rcases List.prefix_cons_iff.mp h with rfl | ⟨rest, rfl, h'⟩
  · simp
  · simp [List.prefix_nil.mp h', noOpening, noClosing]

theorem append (hl : Balanced opens closes l) (hm : Balanced opens closes m) :
    Balanced opens closes (l ++ m) := by
  refine ⟨by simp [hl.even, hm.even], fun front h => ?_⟩
  obtain ⟨back, split⟩ := h
  rcases List.append_eq_append_iff.mp split with ⟨rest, rfl, -⟩ | ⟨front, rfl, rfl⟩
  · exact hl.nonneg front (List.prefix_append _ _)
  · have := hl.even
    have := hm.nonneg front (List.prefix_append _ _)
    simp only [List.countP_append]
    omega

theorem enclose (h : Balanced opens closes inner) (opening : opens o = true)
    (noClosing : closes o = false) (closing : closes c = true) (noOpening : opens c = false) :
    Balanced opens closes (o :: inner ++ [c]) := by
  have even := h.even
  refine ⟨by simp [even, opening, noClosing, closing, noOpening], fun front part => ?_⟩
  rcases List.prefix_cons_iff.mp part with rfl | ⟨rest, rfl, part'⟩
  · simp
  · rcases List.prefix_concat_iff.mp part' with rfl | inside
    · simp [even, opening, noClosing, closing, noOpening]
    · have := h.nonneg rest inside
      simp [opening, noClosing]
      omega

variable {before after left right : List α}

section Groups

variable (apart : ∀ x, opens x = true → closes x = false)
include apart

/-- A group lies on one side of an element that neither opens nor closes. -/
theorem split_middle (hl : Balanced opens closes left) (hi : Balanced opens closes inner)
    (noOpening : opens x = false) (noClosing : closes x = false) (opening : opens o = true)
    (closing : closes c = true)
    (split : left ++ x :: right = before ++ o :: (inner ++ c :: after)) :
    (∃ rest, left = before ++ o :: (inner ++ c :: rest)) ∨
      ∃ rest, right = rest ++ o :: (inner ++ c :: after) := by
  have differs : x ≠ o := by
    rintro rfl
    simp [opening] at noOpening
  have differs' : x ≠ c := by
    rintro rfl
    simp [closing] at noClosing
  rcases List.append_eq_append_iff.mp split with ⟨rest, -, later⟩ | ⟨rest, rfl, later⟩
  · cases rest with
    | nil => exact absurd (List.cons.inj later).1 differs
    | cons y rest => exact .inr ⟨rest, (List.cons.inj later).2⟩
  cases rest with
  | nil => exact absurd (List.cons.inj later).1.symm differs
  | cons y rest =>
    obtain ⟨rfl, later'⟩ := List.cons.inj later
    rcases List.append_eq_append_iff.mp later' with ⟨more, rfl, tail⟩ | ⟨more, rfl, tail⟩
    · cases more with
      | nil => exact absurd (List.cons.inj tail).1.symm differs'
      | cons z more =>
        obtain ⟨rfl, -⟩ := List.cons.inj tail
        exact .inl ⟨more, rfl⟩
    · -- The first list would end inside the group, with one opening element too many.
      have even := hl.even
      have outside := hl.nonneg before (List.prefix_append _ _)
      have inside := hi.nonneg rest (List.prefix_append _ _)
      simp [opening, apart o opening] at even
      omega

/-- A group of a group that is as large as the whole is the whole, and otherwise it lies inside. -/
theorem split_enclosed (h : Balanced opens closes l) (hi : Balanced opens closes inner) {o' c' : α}
    (opening : opens o = true) (closing : closes c = true)
    (split : o' :: (l ++ [c']) = before ++ o :: (inner ++ c :: after)) :
    (before = [] ∧ inner = l ∧ after = []) ∨
      ∃ rest rest', l = rest ++ o :: (inner ++ c :: rest') := by
  have even := h.even
  have even' := hi.even
  have opensNot : opens c = false :=
    eq_false_of_ne_true fun opening => by simp [apart c opening] at closing
  rcases after.eq_nil_or_concat with rfl | ⟨after, z, rfl⟩
  · cases before with
    | nil =>
      obtain ⟨-, same⟩ := List.cons.inj split
      exact .inl ⟨rfl, (List.append_inj_left' same rfl).symm, rfl⟩
    | cons y before =>
      -- The list would end with an unclosed element.
      obtain ⟨-, same⟩ := List.cons.inj split
      have whole : l ++ [c'] = (before ++ o :: inner) ++ [c] := by simpa using same
      obtain rfl := List.append_inj_left' whole rfl
      have outside := h.nonneg before (List.prefix_append _ _)
      simp [opening, apart o opening] at even
      omega
  · cases before with
    | nil =>
      -- The list would begin with an element that closes nothing.
      obtain ⟨-, same⟩ := List.cons.inj split
      have whole : l ++ [c'] = (inner ++ c :: after) ++ [z] := by simpa using same
      obtain rfl := List.append_inj_left' whole rfl
      have outside := h.nonneg (inner ++ [c]) ⟨after, by simp⟩
      simp [closing, opensNot] at outside
      omega
    | cons y before =>
      obtain ⟨-, same⟩ := List.cons.inj split
      have whole : l ++ [c'] = (before ++ o :: (inner ++ c :: after)) ++ [z] := by
        simpa using same
      exact .inr ⟨before, after, List.append_inj_left' whole rfl⟩

end Groups

end Balanced

end DiscreteMath.Text
