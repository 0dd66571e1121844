import DiscreteMath.Proofs.SetAlgebra.Failure
import DiscreteMath.Proofs.SetAlgebra.Membership
import DiscreteMath.Proofs.SetAlgebra.Repetition

/-!
# What serves as the universe

Where there is no universe, a complement is taken against another set, or a universe is gathered
from the enumerated sets and registered. Which of this happens is decided by the sets that are not
temporary. If an enumerated set serves as the universe, its complement is the same as against the
universe that another complement of the same expression gathers later.

## Main definitions

* `Registry.offers` — what a set has to offer for a universe.
-/

namespace DiscreteMath.SetAlgebra

/-! ### Elements -/

theorem filter_distinctFrom {p : Element → Bool} (h : Respects p) (seen elements : List Element) :
    (distinctFrom seen elements).filter p = distinctFrom (seen.filter p) (elements.filter p) := by
  induction elements generalizing seen with
  | nil => rfl
  | cons y rest ih =>
    have known := holds_filter h seen y
    by_cases kept : p y = true <;> by_cases fresh : holds seen y = true <;>
      simp [distinctFrom, kept, fresh, known, ih]

theorem filter_distinct {p : Element → Bool} (h : Respects p) (elements : List Element) :
    (distinct elements).filter p = distinct (elements.filter p) :=
  filter_distinctFrom h [] elements

/-- The complement against an enumerated set. -/
theorem combine_complement_finite (x : Operand) (label : String) (whole : List Element) :
    combine .complement x ⟨label, .finite whole⟩ =
      .set (.finite (whole.filter fun z => !x.set.contains z)) := by
  obtain ⟨_, set⟩ := x
  cases set with
  | finite elements => simp [combine, Enumerated.combine, without]
  | symbolic set => rfl

/-! ### Registries -/

namespace Registry

/-- Temporary sets have no part in the choice. -/
theorem serving_withoutTemporaries (registry : Registry) (operand : String) :
    registry.withoutTemporaries.serving operand = registry.serving operand := by
  simp only [serving, contains_withoutTemporaries isTemporary_universeName,
    others_withoutTemporaries, gathered_withoutTemporaries]

def offers (registry : Registry) (name : String) : List Element :=
  if isTemporary name then [] else (registry.finite.get? name).getD []

variable {registry : Registry} {a b name whole : String} {elements : List Element}

theorem get?_eq_finite :
    registry.get? name = some (.finite elements) ↔ registry.finite.get? name = some elements := by
  unfold get?
  split
  next held => simp [held]
  next none => simp [none]

theorem offers_of_get? (plain : isTemporary name = false)
    (found : registry.get? name = some (.finite elements)) : registry.offers name = elements := by
  simp [offers, plain, get?_eq_finite.mp found]

/-- A set that has something to offer is enumerated and not temporary. -/
theorem get?_of_offers (some : registry.offers name ≠ []) :
    isTemporary name = false ∧ name ∈ registry.names ∧
      registry.get? name = Option.some (.finite (registry.offers name)) := by
  unfold offers at some ⊢
  split at some
  · exact absurd rfl some
  next plain =>
    rw [if_neg plain, get?_eq_finite]
    cases held : registry.finite.get? name with
    | none => exact absurd (congrArg (Option.getD · []) held) some
    | some elements =>
      refine ⟨eq_false_of_ne_true plain, List.mem_append_left _ ?_, rfl⟩
      exact List.mem_map_of_mem (f := Prod.fst) (Named.mem_of_get? held)

/-- A universe is gathered from what the sets other than the operand offer. -/
theorem gathered_eq (registry : Registry) (operand : String) :
    registry.gathered operand = distinct (registry.names.flatMap fun name =>
      if name = operand then [] else registry.offers name) := by
  unfold gathered others
  congr 1
  induction registry.names with
  | nil => rfl
  | cons name rest ih =>
    by_cases temporary : isTemporary name <;> by_cases same : name = operand <;>
      cases held : registry.finite.get? name <;> simp [offers, temporary, same, held, ih]

/-- An operand that offers nothing need not be left out. -/
theorem gathered_of_offers_nil (nothing : registry.offers a = []) :
    registry.gathered a = distinct (registry.names.flatMap registry.offers) := by
  rw [gathered_eq]
  refine congrArg (distinct <| registry.names.flatMap ·) (funext fun name => ?_)
  split
  next same => rw [same, nothing]
  next => rfl

/-- If nothing is gathered, then no other set has anything to offer. -/
theorem offers_of_gathered_nil (none : registry.gathered a = []) (differs : name ≠ a) :
    registry.offers name = [] := by
  rw [gathered_eq, distinct_eq_nil, List.flatMap_eq_nil_iff] at none
  refine Classical.byContradiction fun some => some ?_
  simpa [differs] using none name (get?_of_offers some).2.1

/-- If there is but one other set than `a` and there are several other than `b`, then `b` is
temporary or unknown and has nothing to offer. -/
theorem offers_of_only (tidy : registry.Tidy) (only : registry.others a = [whole])
    (several : 1 < (registry.others b).length) : registry.offers b = [] := by
  refine Classical.byContradiction fun some => ?_
  obtain ⟨plain, member, -⟩ := get?_of_offers some
  have listed : b ∈ registry.names.filter fun name => !isTemporary name := by
    simp [member, plain]
  have unique := tidy.names.filter fun name => !isTemporary name
  rw [others_eq, ← unique.erase_eq_filter, List.length_erase_of_mem listed] at several
  have few := congrArg List.length only
  rw [others_eq, ← unique.erase_eq_filter, List.length_erase] at few
  split at few <;> simp only [List.length_singleton] at few <;> omega

/-- An enumerated set that serves as the universe is what would be gathered. -/
theorem gathered_eq_of_serves (tidy : registry.Tidy) (member : whole ∈ registry.others a)
    (found : registry.get? whole = some (.finite elements))
    (serves : registry.others a = [whole] ∨ registry.gathered a = []) :
    registry.gathered a = elements := by
  have plain : isTemporary whole = false ∧ whole ≠ a := by
    simpa using (List.mem_filter.mp member).2
  rcases serves with only | none
  · have held := get?_eq_finite.mp found
    rw [gathered, only]
    simpa [held] using (tidy.get? found).distinct_eq
  · rw [none, ← offers_of_get? plain.1 found, offers_of_gathered_nil none plain.2]

/-- The complement against an enumerated set that serves as the universe, and against a universe
that is gathered for another set. -/
theorem complement_gathered (tidy : registry.Tidy) {x : Operand}
    (operand : isTemporary a = false → registry.get? a = some x.set)
    (member : whole ∈ registry.others a)
    (found : registry.get? whole = some (.finite elements))
    (serves : registry.others a = [whole] ∨ registry.gathered a = [])
    (several : 1 < (registry.others b).length) (nonempty : registry.gathered b ≠ []) :
    (registry.gathered b).filter (fun z => !x.set.contains z) =
      elements.filter fun z => !x.set.contains z := by
  have nothing : registry.offers b = [] := by
    rcases serves with only | none
    · exact offers_of_only tidy only several
    · refine offers_of_gathered_nil none ?_
      rintro rfl
      exact nonempty none
  rw [← gathered_eq_of_serves tidy member found serves, gathered_of_offers_nil nothing]
  by_cases some : registry.offers a = []
  · rw [gathered_of_offers_nil some]
  -- The operand is enumerated, and what it offers is left out of its complement anyway.
  obtain ⟨plain, -, offered⟩ := get?_of_offers some
  have enumerated : x.set = .finite (registry.offers a) :=
    Option.some.inj ((operand plain).symm.trans offered)
  have respects : Respects fun z => !x.set.contains z := fun y z same => by
    simp only [enumerated, StoredSet.contains_finite, respects_holds _ y z same]
  rw [gathered_eq, filter_distinct respects, filter_distinct respects, List.filter_flatMap,
    List.filter_flatMap]
  refine congrArg (distinct <| registry.names.flatMap ·) (funext fun name => ?_)
  split
  next same =>
    rw [same, List.filter_eq_nil_iff.mpr fun z held => ?_]
    · rfl
    · simpa [enumerated] using holds_of_mem held
  next => rfl

end Registry

end DiscreteMath.SetAlgebra
