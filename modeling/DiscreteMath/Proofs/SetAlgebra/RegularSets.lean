import DiscreteMath.Proofs.SetAlgebra.ElementEquality
import DiscreteMath.Proofs.SetAlgebra.Heading
import DiscreteMath.Proofs.SetAlgebra.Lookup
import DiscreteMath.SetAlgebra.Operation

/-!
# Regular sets

A symbolic set is regular when its rule decides every element, treats equal elements alike, and its
definition passes for that of the universe only if everything belongs to it. The predefined sets
are regular.

## Main definitions

* `SymbolicSet.Decisive` — the rule decides every element and treats equal ones alike.
* `SymbolicSet.Regular`, `StoredSet.Regular` — and the definition can be relied on.
-/

namespace DiscreteMath.SetAlgebra

structure SymbolicSet.Decisive (set : SymbolicSet) : Prop where
  decides : ∀ x, (set.rule x).isSome = true
  respects : Respects set.rule

structure SymbolicSet.Regular (set : SymbolicSet) : Prop extends set.Decisive where
  named : Modest set.definition.toList ∨ set.definition = "U" ∧ ∀ x, set.rule x = some true

/-- An enumerated set is regular as it is. -/
def StoredSet.Regular : StoredSet → Prop
  | .finite _ => True
  | .symbolic set => set.Regular

/-- A set that passes for the universe is it. -/
theorem SymbolicSet.Regular.rule_of_isUniversal {set : SymbolicSet} (h : set.Regular)
    (universal : set.isUniversal = true) (x : Element) : set.rule x = some true := by
  rcases h.named with modest | ⟨-, all⟩
  · obtain ⟨short, long⟩ := modest.label
    simp [isUniversal, SymbolicSet.label, short, long] at universal
  · exact all x

/-! ### The sets of numbers -/

/-- The data of equal elements. -/
theorem datum_cases {x y : Element} (h : (x == y) = true) :
    x.datum = y.datum ∨
      (∃ a b, x.datum = .number a ∧ y.datum = .number b ∧ Number.IsZero a ∧ Number.IsZero b) ∨
      ∃ as bs, x.datum = .collection as ∧ y.datum = .collection bs := by
  rcases (Element.same_iff_alike x y).mp h with (rfl | ⟨left, right⟩) | _ | _ | _
  · exact .inl rfl
  · exact .inr (.inl ⟨_, _, rfl, rfl, left, right⟩)
  · exact .inl rfl
  · exact .inl rfl
  · exact .inr (.inr ⟨_, _, rfl, rfl⟩)

theorem respects_integer? : Respects fun x => x.datum.integer? := by
  intro x y h
  rcases datum_cases h with same | ⟨a, b, left, right, zero, zero'⟩ | ⟨as, bs, left, right⟩
  · simp only [same]
  · simp only [left, right, Datum.integer?, zero.toInteger?, zero'.toInteger?]
  · simp only [left, right, Datum.integer?]

theorem respects_isFinite : Respects fun x => x.datum.isFinite := by
  intro x y h
  rcases datum_cases h with same | ⟨a, b, left, right, zero, zero'⟩ | ⟨as, bs, left, right⟩
  · simp only [same]
  · simp only [left, right, Datum.isFinite, zero.isFinite, zero'.isFinite]
  · simp only [left, right, Datum.isFinite]

theorem regular_integral {definition : String} (modest : Modest definition.toList) (p : Int → Bool)
    (samples : List Element) :
    (SymbolicSet.ofRule definition (fun x => some (x.integer?.any p)) samples).Regular where
  decides _ := rfl
  respects x y h := congrArg (fun n => some (Option.any p n)) (respects_integer? x y h)
  named := .inl modest

/-- A rule that tests texts in some way and asks of everything else whether it is finite. -/
theorem regular_numeric {definition : String} (modest : Modest definition.toList)
    {rule : Datum → Option Bool} {p : List Char → Bool}
    (text : ∀ content, rule (.text content) = some (p content.toList))
    (other : ∀ x : Datum, (∀ content, x ≠ .text content) → rule x = some x.isFinite)
    (samples : List Element) : (SymbolicSet.ofRule definition rule samples).Regular where
  decides x := by
    simp only [SymbolicSet.ofRule]
    cases datum : x.datum with
    | text content => rw [text]; rfl
    | number value => rw [other _ (by simp)]; rfl
    | collection members => rw [other _ (by simp)]; rfl
  respects x y h := by
    simp only [SymbolicSet.ofRule]
    rcases datum_cases h with same | ⟨a, b, left, right, -⟩ | ⟨as, bs, left, right⟩
    · rw [same]
    · have finite := respects_isFinite x y h
      simp only [left, right] at finite ⊢
      rw [other _ (by simp), other _ (by simp), finite]
    · rw [left, right, other _ (by simp), other _ (by simp)]
      rfl
  named := .inl modest

theorem regular_predefined : ∀ entry ∈ predefined, entry.2.Regular := by
  simp only [predefined, List.forall_mem_cons, List.not_mem_nil, false_implies, implies_true,
    and_true]
  refine ⟨?_, ?_, ?_, ?_, ?_, ?_, ?_, ?_, ?_⟩
  · exact regular_integral (.inl (by decide)) _ _
  · exact regular_integral (.inl (by decide)) _ _
  · refine regular_numeric (.inl (by decide)) (fun _ => rfl) (fun x other => ?_) _
    cases x <;> simp_all
  · refine ⟨⟨fun x => rfl, fun x y h => ?_⟩, .inl (.inl (by decide))⟩
    exact congrArg some (respects_isFinite x y h)
  · exact regular_integral (.inl (by decide)) _ _
  · exact regular_integral (.inl (by decide)) _ _
  · exact regular_integral (.inl (by decide)) _ _
  · exact ⟨⟨fun _ => rfl, fun _ _ _ => rfl⟩, .inr ⟨rfl, fun _ => rfl⟩⟩
  · refine regular_numeric (.inl (by decide)) (fun _ => rfl) (fun x other => ?_) _
    cases x <;> simp_all

/-! ### The predefined registry -/

namespace Registry

theorem standard_eq : standard = ⟨[], predefined⟩ := rfl

/-- The symbolic sets are predefined ones under their own names. -/
def Predefined (registry : Registry) : Prop :=
  ∀ name set, registry.get? name = some (.symbolic set) → (name, set) ∈ predefined

theorem predefined_standard : standard.Predefined := by
  intro name set found
  rw [standard_eq] at found
  simp only [get?, Named.get?_nil, Option.map_eq_some_iff, StoredSet.symbolic.injEq,
    exists_eq_right] at found
  exact Named.mem_of_get? found

theorem Predefined.insert {registry : Registry} (h : registry.Predefined) (name : String)
    (elements : List Element) : (registry.insert name (.finite elements)).Predefined := by
  intro other set found
  rw [get?_insert] at found
  split at found
  · cases found
  · exact h other set found

end Registry

end DiscreteMath.SetAlgebra
