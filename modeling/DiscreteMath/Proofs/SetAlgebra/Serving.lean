import DiscreteMath.Proofs.SetAlgebra.Entries

/-!
# What serves as the universe

A complement is taken against the universe. Where there is none, another set serves in its place, or
a universe is gathered from the enumerated sets and registered. Which of this happens is decided by
the sets that are not temporary.

## Main definitions

* `Registry.serving` — what serves as the universe for a set.
-/

namespace DiscreteMath.SetAlgebra

namespace Registry

variable {registry : Registry} {a name whole : String} {elements : List Element}

theorem contains_of_mem_names (member : name ∈ registry.names) :
    registry.contains name = true := by
  refine Bool.of_not_eq_false fun absent => ?_
  obtain ⟨finite, symbolic⟩ := contains_eq_false.mp absent
  exact (List.mem_append.mp member).elim finite symbolic

theorem others_eq (registry : Registry) (operand : String) :
    registry.others operand =
      (registry.names.filter fun name => !isTemporary name).filter (· != operand) := by
  rw [List.filter_filter, others]
  exact List.filter_congr fun name _ => Bool.and_comm ..

theorem others_withoutTemporaries (registry : Registry) (operand : String) :
    registry.withoutTemporaries.others operand = registry.others operand := by
  have names : registry.withoutTemporaries.names = registry.names.filter (!isTemporary ·) := by
    simp only [names, Named.names, withoutTemporaries, List.filter_append, List.filter_map]
    rfl
  simp only [others_eq, names, List.filter_filter, Bool.and_self]

/-- The name of what serves as the universe for a set, with the elements that are registered under
it, if any are. -/
def serving (registry : Registry) (operand : String) : Option (String × Option (List Element)) :=
  if registry.contains universeName then some (universeName, none)
  else match registry.others operand with
    | [] => none
    | [only] => some (only, none)
    | _ :: second :: more =>
      if (registry.gathered operand).isEmpty then some ((second :: more).getLastD second, none)
      else some (universeName, some (registry.gathered operand))

theorem serving_of_contains (present : registry.contains universeName = true) (operand : String) :
    registry.serving operand = some (universeName, none) := if_pos present

/-- Where there is no universe, one is gathered from several sets that are not all empty. -/
theorem serving_of_several (absent : registry.contains universeName = false)
    (several : 1 < (registry.others a).length) (nonempty : registry.gathered a ≠ []) :
    registry.serving a = some (universeName, some (registry.gathered a)) := by
  unfold serving
  rw [if_neg (by simp [absent])]
  split
  next others => simp [others] at several
  next only others => simp [others] at several
  next => exact if_neg (by simpa using nonempty)

/-- A set that serves where there is no universe is the only other one, or the others have nothing
to offer. -/
theorem serves_of_serving (absent : registry.contains universeName = false)
    (serving : registry.serving a = some (whole, none)) :
    whole ∈ registry.others a ∧ (registry.others a = [whole] ∨ registry.gathered a = []) := by
  unfold Registry.serving at serving
  rw [if_neg (by simp [absent])] at serving
  split at serving
  · cases serving
  next only others =>
    cases serving
    simp [others]
  next first second more others =>
    split at serving
    next none =>
      cases serving
      refine ⟨?_, .inr (List.isEmpty_iff.mp none)⟩
      have last : (second :: more).getLastD second ∈ second :: second :: more :=
        List.getLastD_mem_cons
      rw [others]
      exact List.mem_cons_of_mem first (by simpa using last)
    next => cases serving

theorem absent_of_serving (none : registry.serving a = none) :
    registry.contains universeName = false := by
  refine eq_false_of_ne_true fun present => ?_
  cases (serving_of_contains present a).symm.trans none

/-- A set that serves is registered. -/
theorem contains_of_serving (serving : registry.serving a = some (whole, none)) :
    registry.contains whole = true := by
  by_cases present : registry.contains universeName = true
  · cases (serving_of_contains present a).symm.trans serving
    exact present
  · have member := (serves_of_serving (eq_false_of_ne_true present) serving).1
    exact contains_of_mem_names (List.mem_filter.mp member).1

/-- A universe that is registered is gathered from several sets. -/
theorem gathers_of_serving (serving : registry.serving a = some (name, some elements)) :
    name = universeName ∧ registry.contains universeName = false ∧
      elements = registry.gathered a ∧ 1 < (registry.others a).length ∧
      registry.gathered a ≠ [] := by
  unfold Registry.serving at serving
  split at serving
  · cases serving
  next absent =>
    split at serving
    · cases serving
    · cases serving
    next others =>
      split at serving
      · cases serving
      next some =>
        cases serving
        exact ⟨rfl, eq_false_of_ne_true absent, rfl, by simp [others], by simpa using some⟩

/-- A temporary set never serves. -/
theorem isTemporary_of_serving {registered : Option (List Element)}
    (serving : registry.serving a = some (name, registered)) : isTemporary name = false := by
  cases registered with
  | some elements =>
    rw [(gathers_of_serving serving).1]
    exact isTemporary_universeName
  | none =>
    by_cases present : registry.contains universeName = true
    · cases (serving_of_contains present a).symm.trans serving
      exact isTemporary_universeName
    · have member := (serves_of_serving (eq_false_of_ne_true present) serving).1
      have plain := (List.mem_filter.mp member).2
      simp only [Bool.and_eq_true, Bool.not_eq_true'] at plain
      exact plain.1

end Registry

/-! ### Choosing a universe -/

/-- The registry decides what a complement is taken against. -/
theorem Run.chooseUniverse_spec (r : Run) (operand : String) :
    match r.workspace.registry.serving operand with
    | none => r.chooseUniverse operand = .error .noUniverse
    | some (name, none) => r.chooseUniverse operand = .ok (r, name)
    | some (name, some elements) => ∃ next, r.chooseUniverse operand = .ok (next, name) ∧
        next.workspace = r.workspace.store name (.finite elements) ∧ next.stack = r.stack ∧
        next.temporaries = r.temporaries := by
  unfold Registry.serving chooseUniverse
  by_cases present : r.workspace.registry.contains universeName = true
  · simp only [if_pos present]
  simp only [if_neg present]
  cases r.workspace.registry.others operand with
  | nil => rfl
  | cons first rest =>
    cases rest with
    | nil => rfl
    | cons second more =>
      dsimp only
      by_cases none : (r.workspace.registry.gathered operand).isEmpty = true
      · simp only [if_pos none]
      · simp only [if_neg none]
        exact ⟨_, rfl, rfl, rfl, rfl⟩

/-- A universe is chosen that is there, or one is registered. -/
theorem Run.chooseUniverse_eq_ok {r s : Run} {operand whole : String}
    (chosen : r.chooseUniverse operand = .ok (s, whole)) :
    r.workspace.registry.serving operand = some (whole, none) ∧ s = r ∨
      ∃ elements, r.workspace.registry.serving operand = some (whole, some elements) ∧
        s.workspace = r.workspace.store whole (.finite elements) ∧ s.stack = r.stack ∧
        s.temporaries = r.temporaries := by
  have spec := r.chooseUniverse_spec operand
  cases serving : r.workspace.registry.serving operand with
  | none =>
    simp only [serving] at spec
    cases spec.symm.trans chosen
  | some served =>
    obtain ⟨name, none | elements⟩ := served
    · simp only [serving] at spec
      cases spec.symm.trans chosen
      exact .inl ⟨rfl, rfl⟩
    · simp only [serving] at spec
      obtain ⟨next, chosen', same, stack, count⟩ := spec
      cases chosen'.symm.trans chosen
      exact .inr ⟨elements, rfl, same, stack, count⟩

/-- The choice of a universe leaves the stack as it is. -/
theorem Run.stack_chooseUniverse {r s : Run} {operand whole : String}
    (chosen : r.chooseUniverse operand = .ok (s, whole)) :
    s.stack = r.stack ∧ s.temporaries = r.temporaries := by
  rcases chooseUniverse_eq_ok chosen with ⟨-, rfl⟩ | ⟨-, -, -, stack, count⟩
  · exact ⟨rfl, rfl⟩
  · exact ⟨stack, count⟩

end DiscreteMath.SetAlgebra
