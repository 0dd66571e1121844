import Mathlib.Data.List.Forall2

/-!
# Results that may fail

A computation in steps succeeds only if every step does, and it fails as its first step that does.
The results of a computation for every entry of a list stand in the order of the entries.
-/

namespace DiscreteMath

variable {ε α β : Type}

theorem bind_eq_ok {result : Except ε α} {f : α → Except ε β} {b : β}
    (h : result.bind f = .ok b) : ∃ a, result = .ok a ∧ f a = .ok b := by
  cases result with
  | error e => cases h
  | ok a => exact ⟨a, rfl, h⟩

theorem map_eq_ok {result : Except ε α} {f : α → β} {b : β} (h : result.map f = .ok b) :
    ∃ a, result = .ok a ∧ f a = b := by
  cases result with
  | error e => cases h
  | ok a => exact ⟨a, rfl, Except.ok.inj h⟩

theorem bind_eq_error {result : Except ε α} {f : α → Except ε β} {e : ε}
    (h : result.bind f = .error e) :
    result = .error e ∨ ∃ a, result = .ok a ∧ f a = .error e := by
  cases result with
  | error e' => exact .inl (by cases h; rfl)
  | ok a => exact .inr ⟨a, rfl, h⟩

theorem map_eq_error {result : Except ε α} {f : α → β} {e : ε}
    (h : result.map f = .error e) : result = .error e := by
  cases result with
  | error e' => cases h; rfl
  | ok a => cases h

theorem exists_eq_ok_of_toOption {result : Except ε α} {f : α → β} {b : β}
    (h : result.toOption.map f = some b) : ∃ a, result = .ok a ∧ f a = b := by
  cases result with
  | error e => cases h
  | ok a => exact ⟨a, rfl, Option.some.inj h⟩

section Lists

variable {f : α → Except ε β} {l : List α}

theorem exists_of_forall₂ {r : α → β → Prop} {m : List β} {y : β}
    (h : List.Forall₂ r l m) (member : y ∈ m) : ∃ x ∈ l, r x y := by
  induction h with
  | nil => simp at member
  | cons holds _ ih =>
    rcases List.mem_cons.mp member with rfl | later
    · exact ⟨_, List.mem_cons_self, holds⟩
    · obtain ⟨x, inside, holds⟩ := ih later
      exact ⟨x, List.mem_cons_of_mem _ inside, holds⟩

theorem forall₂_of_mapM {ys : List β} (run : l.mapM f = .ok ys) :
    List.Forall₂ (fun x y => f x = .ok y) l ys := by
  induction l generalizing ys with
  | nil =>
    cases run
    exact .nil
  | cons x rest ih =>
    rw [List.mapM_cons] at run
    obtain ⟨y, here, run⟩ := bind_eq_ok run
    obtain ⟨others, later, same⟩ := bind_eq_ok run
    cases same
    exact .cons here (ih later)

theorem exists_mapM {P : α → β → Prop} (h : ∀ x ∈ l, ∃ y, f x = .ok y ∧ P x y) :
    ∃ ys, l.mapM f = .ok ys ∧ List.Forall₂ P l ys := by
  induction l with
  | nil => exact ⟨[], rfl, .nil⟩
  | cons x rest ih =>
    obtain ⟨⟨y, here, holds⟩, later⟩ := List.forall_mem_cons.mp h
    obtain ⟨ys, run, all⟩ := ih later
    refine ⟨y :: ys, ?_, .cons holds all⟩
    rw [List.mapM_cons, here, run]
    rfl

theorem mapM_eq_map {g : α → β} (h : ∀ x ∈ l, f x = .ok (g x)) : l.mapM f = .ok (l.map g) := by
  induction l with
  | nil => rfl
  | cons x rest ih =>
    obtain ⟨here, later⟩ := List.forall_mem_cons.mp h
    rw [List.mapM_cons, here, ih later]
    rfl

end Lists

end DiscreteMath
