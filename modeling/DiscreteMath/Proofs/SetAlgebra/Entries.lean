import DiscreteMath.Proofs.SetAlgebra.Lookup

/-!
# The entries of a registry

Storing a set under a name leaves every other entry in its place: a name that is present keeps its
place and a new one comes last. Taking a name out leaves the others in their order. So temporary
sets come and go without a trace among the others.
-/

namespace DiscreteMath.SetAlgebra

namespace Named

variable {entries others : Named α} {name other : String} {value : α}

@[simp] theorem names_nil : names ([] : Named α) = [] := rfl

@[simp] theorem names_cons (entry : String × α) :
    names (entry :: entries) = entry.1 :: names entries := rfl

@[simp] theorem names_append : names (entries ++ others) = names entries ++ names others :=
  List.map_append

theorem get?_eq_none : entries.get? name = none ↔ name ∉ entries.names := by
  induction entries with
  | nil => simp
  | cons entry rest ih =>
    obtain ⟨head, kept⟩ := entry
    by_cases same : name = head <;> simp [same, ih]

theorem put_append (absent : name ∉ entries.names) :
    (entries ++ others).put name value = entries ++ others.put name value := by
  induction entries with
  | nil => rfl
  | cons entry rest ih =>
    simp only [names_cons, List.mem_cons, not_or] at absent
    simp [put, Ne.symm absent.1, ih absent.2]

theorem erase_of_not_mem (absent : name ∉ entries.names) : entries.erase name = entries := by
  refine List.filter_eq_self.mpr fun entry member => ?_
  have differs : entry.1 ≠ name := fun same => absent (same ▸ List.mem_map_of_mem member)
  simpa using differs

theorem mem_put {entry : String × α} (h : entry ∈ entries.put name value) :
    entry = (name, value) ∨ entry ∈ entries := by
  induction entries with
  | nil => simpa [put] using h
  | cons head rest ih =>
    simp only [put] at h
    split at h <;> grind

theorem mem_names_put :
    other ∈ (entries.put name value).names ↔ other = name ∨ other ∈ entries.names := by
  induction entries with
  | nil => simp [put]
  | cons head rest ih =>
    simp only [put]
    split
    next same => simp [← same]
    next => simp [ih, or_left_comm]

theorem nodup_put (distinct : entries.names.Nodup) : (entries.put name value).names.Nodup := by
  induction entries with
  | nil => simp [put]
  | cons head rest ih =>
    simp only [names_cons, List.nodup_cons] at distinct
    simp only [put]
    split
    next => simpa using distinct
    next differs =>
      simp only [names_cons, List.nodup_cons, mem_names_put, not_or]
      exact ⟨⟨differs, distinct.1⟩, ih distinct.2⟩

theorem mem_names_erase :
    other ∈ (entries.erase name).names ↔ other ≠ name ∧ other ∈ entries.names := by
  induction entries with
  | nil => simp [erase]
  | cons head rest ih => grind [erase, names_cons]

theorem filter_put (p : String → Bool) :
    (entries.put name value).filter (p ·.1) =
      if p name then put name value (entries.filter (p ·.1)) else entries.filter (p ·.1) := by
  induction entries with
  | nil => by_cases kept : p name <;> simp [put, kept]
  | cons head rest ih =>
    obtain ⟨first, held⟩ := head
    by_cases same : first = name
    · subst same
      by_cases kept : p first <;> simp [put, kept]
    · by_cases kept : p first <;> by_cases kept' : p name <;> simp [put, same, kept, kept', ih]

theorem filter_erase (p : String → Bool) :
    (entries.erase name).filter (p ·.1) = erase (entries.filter (p ·.1)) name := by
  simp only [erase, List.filter_filter, Bool.and_comm]

/-- Taking out a name that is filtered out anyway. -/
theorem filter_erase_of_not (p : String → Bool) (dropped : p name = false) :
    (entries.erase name).filter (p ·.1) = entries.filter (p ·.1) := by
  rw [filter_erase]
  refine erase_of_not_mem fun member => ?_
  simp only [names, List.mem_map, List.mem_filter] at member
  obtain ⟨entry, ⟨-, kept⟩, rfl⟩ := member
  simp [dropped] at kept

end Named

namespace Registry

variable {registry : Registry} {name : String}

theorem contains_eq_false : registry.contains name = false ↔
    name ∉ registry.finite.names ∧ name ∉ registry.symbolic.names := by
  rw [← Named.get?_eq_none, ← Named.get?_eq_none, contains, get?]
  cases registry.finite.get? name <;> simp

/-- A temporary set leaves no trace among the others. -/
theorem withoutTemporaries_insert_temporary (temporary : isTemporary name = true)
    (set : StoredSet) :
    (registry.insert name set).withoutTemporaries = registry.withoutTemporaries := by
  cases set <;>
    simp [insert, withoutTemporaries, Named.filter_put (!isTemporary ·),
      Named.filter_erase_of_not (!isTemporary ·), temporary]

theorem withoutTemporaries_insert (plain : isTemporary name = false) (set : StoredSet) :
    (registry.insert name set).withoutTemporaries =
      registry.withoutTemporaries.insert name set := by
  cases set <;>
    simp [insert, withoutTemporaries, Named.filter_put (!isTemporary ·),
      Named.filter_erase (!isTemporary ·), plain]

theorem contains_withoutTemporaries {name : String} (plain : isTemporary name = false) :
    registry.withoutTemporaries.contains name = registry.contains name := by
  simp [contains, get?_withoutTemporaries, plain]

@[simp] theorem hasTemporaries_withoutTemporaries :
    registry.withoutTemporaries.hasTemporaries = false := by
  simp [hasTemporaries, names, Named.names, withoutTemporaries]

theorem withoutTemporaries_eq_self (clean : registry.hasTemporaries = false) :
    registry.withoutTemporaries = registry := by
  simp only [hasTemporaries, names, Named.names, List.any_eq_false, List.mem_append,
    List.mem_map] at clean
  unfold withoutTemporaries
  have finite (entry) (member : entry ∈ registry.finite) : (!isTemporary entry.1) = true := by
    simpa using clean _ (.inl ⟨entry, member, rfl⟩)
  have symbolic (entry) (member : entry ∈ registry.symbolic) : (!isTemporary entry.1) = true := by
    simpa using clean _ (.inr ⟨entry, member, rfl⟩)
  rw [List.filter_eq_self.mpr finite, List.filter_eq_self.mpr symbolic]

end Registry

end DiscreteMath.SetAlgebra
