import DiscreteMath.Proofs.SetAlgebra.ElementEquality
import DiscreteMath.Proofs.SetAlgebra.Entries
import DiscreteMath.Proofs.SetAlgebra.Recall

/-!
# What an evaluation leaves behind

Whether it succeeds or not, an evaluation takes the temporary sets away, leaves every other set as
it is and where it is, and may register some sets behind them: in the explaining mode the names
that were missing, as empty sets, and for a complement without a universe what the enumerated sets
hold, as `U`.

## Main definitions

* `Workspace.Adds` — the sets that an evaluation may register.
* `Workspace.Grown` — a registry with such sets at the end.
-/

namespace DiscreteMath.SetAlgebra

namespace Registry

variable {registry : Registry}

/-- What a universe is made of comes from enumerated sets that are not temporary. -/
theorem exists_of_mem_gathered {operand : String} {x : Element}
    (member : x ∈ registry.gathered operand) :
    ∃ source ∈ registry.withoutTemporaries.finite, x ∈ source.2 := by
  have member := (distinct_sublist _).subset member
  simp only [others, List.mem_flatten, List.mem_filterMap, List.mem_filter,
    Bool.and_eq_true] at member
  obtain ⟨elements, ⟨name, ⟨-, plain, -⟩, held⟩, member⟩ := member
  exact ⟨(name, elements), List.mem_filter.mpr ⟨Named.mem_of_get? held, plain⟩, member⟩

end Registry

namespace Workspace

/-- The evaluation of the expression may register the elements under the name: nothing under a name
that was missing, or under `U` what is gathered when a complement is due and `U` is not there. -/
inductive Adds (w : Workspace) (expression : String) : String → List Element → Prop
  | missing {name : String} : w.explains = true → .name name ∈ tokens expression.toList →
      w.registry.contains name = false → Adds w expression name []
  | whole {s : Run} {operand : String} {below : List String} {rest : List Instruction}
      {elements : List Element} : w.Visits apply expression s (.apply .complement :: rest) →
      s.stack = operand :: below → s.workspace.registry.contains universeName = false →
      w.registry.contains universeName = false → elements ≠ [] →
      (∀ x ∈ elements, ∃ source ∈ w.registry.withoutTemporaries.finite, x ∈ source.2) →
      Adds w expression universeName elements

/-- Apart from temporary sets, the registry is that of the workspace with additions at the end. -/
def Grown (w : Workspace) (expression : String) (registry : Registry) : Prop :=
  ∃ added : Named (List Element),
    registry.withoutTemporaries =
        ⟨w.registry.withoutTemporaries.finite ++ added,
          w.registry.withoutTemporaries.symbolic⟩ ∧
      added.names.Nodup ∧ ∀ entry ∈ added, w.Adds expression entry.1 entry.2

variable {w : Workspace} {expression : String} {registry : Registry} {name : String}

theorem Adds.absent {elements : List Element} (adds : w.Adds expression name elements) :
    w.registry.contains name = false := by
  cases adds with
  | missing _ _ absent => exact absent
  | whole _ _ _ absent => exact absent

/-- An element that was added comes from a set that was there. -/
theorem Adds.exists_of_mem {elements : List Element} (adds : w.Adds expression name elements)
    {x : Element} (member : x ∈ elements) :
    ∃ source ∈ w.registry.withoutTemporaries.finite, x ∈ source.2 := by
  cases adds with
  | missing => cases member
  | whole _ _ _ _ _ sources => exact sources x member

namespace Grown

theorem refl (w : Workspace) (expression : String) : w.Grown expression w.registry :=
  ⟨[], by simp, by simp, by simp⟩

theorem temporary (grown : w.Grown expression registry) (n : Nat) (set : StoredSet) :
    w.Grown expression (registry.insert (temporaryName n) set) := by
  unfold Grown
  rwa [Registry.withoutTemporaries_insert_temporary (isTemporary_temporaryName n)]

/-- Registering a set that was not there at the start. -/
theorem add (grown : w.Grown expression registry) (plain : isTemporary name = false)
    {elements : List Element} (adds : w.Adds expression name elements) :
    w.Grown expression (registry.insert name (.finite elements)) := by
  obtain ⟨added, same, distinct, all⟩ := grown
  have absent := adds.absent
  rw [← Registry.contains_withoutTemporaries plain, Registry.contains_eq_false] at absent
  refine ⟨added.put name elements, ?_, Named.nodup_put distinct, fun entry member => ?_⟩
  · rw [Registry.withoutTemporaries_insert plain, same, Registry.insert,
      Named.put_append absent.1, Named.erase_of_not_mem absent.2]
  · rcases Named.mem_put member with rfl | member
    · exact adds
    · exact all entry member

/-- A set that is not there now was not there at the start. -/
theorem absent (grown : w.Grown expression registry) (plain : isTemporary name = false)
    (absent : registry.contains name = false) : w.registry.contains name = false := by
  obtain ⟨added, same, -⟩ := grown
  rw [← Registry.contains_withoutTemporaries plain, same, Registry.contains_eq_false] at absent
  rw [← Registry.contains_withoutTemporaries plain, Registry.contains_eq_false]
  simp only [Named.names_append, List.mem_append, not_or] at absent
  exact ⟨absent.1.1, absent.2⟩

/-- What is gathered now was there at the start: the additions hold nothing else. -/
theorem exists_of_mem_gathered (grown : w.Grown expression registry) {operand : String}
    {x : Element} (member : x ∈ registry.gathered operand) :
    ∃ source ∈ w.registry.withoutTemporaries.finite, x ∈ source.2 := by
  obtain ⟨source, stored, held⟩ := Registry.exists_of_mem_gathered member
  obtain ⟨added, same, -, all⟩ := grown
  rw [same] at stored
  rcases List.mem_append.mp stored with old | new
  · exact ⟨source, old, held⟩
  · exact (all source new).exists_of_mem held

end Grown

theorem keeps_grown (w : Workspace) (expression : String) :
    Keeps apply w expression fun v _ => w.Grown expression v.registry where
  execution grown executed := by rwa [(Extends.apply executed).registry]
  temporary grown executed := by
    rw [← (Extends.apply executed).registry] at grown
    exact grown.temporary _ _
  nothing grown := grown.temporary _ _
  whole grown := fun ⟨⟨_, visits⟩, ⟨_, stack⟩, absent, _, nonempty⟩ =>
    grown.add isTemporary_universeName (.whole visits stack absent
      (grown.absent isTemporary_universeName absent) nonempty fun _ =>
        grown.exists_of_mem_gathered)
  missing grown explains member absent :=
    grown.add (isTemporary_of_mem_tokens member) (.missing explains member absent)

/-- Whether an evaluation succeeds or not, afterwards there are no temporary sets. The other sets
are those from before, unchanged and in their order, and behind them come at most some additions: in
the explaining mode names of the expression that were missing, as empty sets, and `U` if it was not
there when a complement was due. It is not empty then, and holds elements of enumerated sets. -/
theorem evaluate_frame (w : Workspace) (expression : String) :
    (w.evaluate expression).workspace.registry.hasTemporaries = false ∧
      ∃ added : Named (List Element),
        (w.evaluate expression).workspace.registry =
            ⟨w.registry.withoutTemporaries.finite ++ added,
              w.registry.withoutTemporaries.symbolic⟩ ∧
          added.names.Nodup ∧ ∀ entry ∈ added, w.Adds expression entry.1 entry.2 := by
  have grown := (keeps_grown w expression).evaluateInfix (.refl w expression)
  rw [evaluate, evaluateBy_workspace, registry_dropTemporaries]
  exact ⟨Registry.hasTemporaries_withoutTemporaries, grown⟩

/-- The universe comes last, and no temporary set stays. -/
example : ((ofRegistry .empty).after apply [.addElements "A" [.text "a"],
    .addElements "B" [.text "b"], .addElements "D" [], .evaluate "Aᶜ"]).registry.names =
      ["A", "B", "D", "U"] := by
  cbv

end Workspace

end DiscreteMath.SetAlgebra
