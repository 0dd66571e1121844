import DiscreteMath.Proofs.Result
import DiscreteMath.Proofs.SetAlgebra.Membership
import DiscreteMath.Proofs.SetAlgebra.Rejection
import DiscreteMath.Proofs.SetAlgebra.Stack

/-!
# What recovery makes of operands that are left over

With explanations an evaluation never fails. If its instructions leave several operands, these are
combined by union, from the latest to the first. Each of them is a regular set, so nothing is left
out: to the answer belongs what belongs to one of them at least.

## Main definitions

* `Workspace.Lucid` — explanations are asked for, and all sets are regular.
* `Workspace.Completed` — a registry in which unknown names of an expression are empty sets.
-/

namespace DiscreteMath.SetAlgebra

namespace Workspace

/-- Explanations are asked for, so that nothing is taken from the memo, and all sets are regular. -/
structure Lucid (w : Workspace) : Prop where
  explains : w.explains = true
  regular : ∀ name set, w.registry.get? name = some set → set.Regular

variable {w next : Workspace} {name : String} {op : Operation} {a b : String}

theorem get?_of_operand {x : Operand} (found : w.operand name = .ok x) :
    w.registry.get? name = some x.set := by
  obtain ⟨set, held, rfl⟩ := map_eq_ok found
  unfold find at held
  split at held
  next held' => exact held'.trans (congrArg some (Except.ok.inj held))
  next => cases held

/-- With explanations an operation is computed, whatever the memo holds. -/
theorem apply_of_explains (explains : w.explains = true) (op : Operation) (a b : String) :
    w.apply op a b = w.applyAnew op a b := by
  rw [apply_eq, applyAnew]
  simp only [explains, if_true]
  cases w.compute op a b <;> rfl

namespace Lucid

/-- A new set under some name. -/
theorem store (lucid : w.Lucid) (name : String) {set : StoredSet} (regular : set.Regular) :
    (w.store name set).Lucid where
  explains := lucid.explains
  regular other known found := by
    change (w.registry.insert name set).get? other = some known at found
    rw [Registry.get?_insert] at found
    split at found
    · cases found
      exact regular
    · exact lucid.regular other known found

/-- The union of two sets. -/
theorem apply_union (lucid : w.Lucid) {x y : StoredSet} (left : w.registry.get? a = some x)
    (right : w.registry.get? b = some y) :
    ∃ set next, w.apply .union a b = .ok (.set set, next) ∧ set.Regular ∧
      (∀ z, set.contains z = (x.contains z || y.contains z)) ∧ next.registry = w.registry ∧
      next.Lucid := by
  have proper : Operation.union ≠ .subset := by decide
  obtain ⟨set, value, regular, member⟩ := combine_spec proper
    (a := ⟨w.label a, x⟩) (b := ⟨w.label b, y⟩) (lucid.regular _ _ left) (lucid.regular _ _ right)
  refine ⟨set, { w with computations := w.computations + 1 }, ?_, regular, member, rfl,
    lucid.explains, lucid.regular⟩
  rw [apply_of_explains lucid.explains]
  simp [applyAnew, compute, operand, find, left, right, value, bind, Except.bind, Except.map, pure,
    Except.pure]

theorem apply (lucid : w.Lucid) {value : Value} (applied : w.apply op a b = .ok (value, next)) :
    next.Lucid ∧ ∀ set, value = .set set → set.Regular := by
  rw [apply_of_explains lucid.explains] at applied
  obtain ⟨anew, computed, same⟩ := bind_eq_ok applied
  cases same
  refine ⟨⟨lucid.explains, lucid.regular⟩, ?_⟩
  rintro set rfl
  obtain ⟨x, left, computed⟩ := bind_eq_ok computed
  obtain ⟨y, right, computed⟩ := bind_eq_ok computed
  have value : combine op x y = .set set := Except.ok.inj computed
  have proper : op ≠ .subset := by
    rintro rfl
    obtain ⟨verdict, relation⟩ := combine_subset_eq x y
    cases relation.symm.trans value
  obtain ⟨set', value', regular, -⟩ := combine_spec proper
    (lucid.regular _ _ (get?_of_operand left)) (lucid.regular _ _ (get?_of_operand right))
  cases value'.symm.trans value
  exact regular

end Lucid

theorem keeps_lucid (w : Workspace) (expression : String) :
    Keeps apply w expression fun v _ => v.Lucid where
  execution lucid executed := (lucid.apply executed).1
  temporary lucid executed := (lucid.apply executed).1.store _ ((lucid.apply executed).2 _ rfl)
  nothing lucid := lucid.store _ trivial
  whole lucid _ := lucid.store _ trivial
  missing lucid _ _ _ := lucid.store _ trivial

/-- What is registered of the names of the expression is what it was in the workspace, or an empty
set if it was unknown. -/
def Completed (w : Workspace) (expression : String) (registry : Registry) : Prop :=
  ∀ name, .name name ∈ tokens expression.toList → registry.contains name = true →
    registry.get? name = some ((w.registry.get? name).getD (.finite []))

variable {expression : String}

theorem Completed.insert {registry : Registry} (completed : w.Completed expression registry)
    {other : String} {set : StoredSet} (same : .name other ∈ tokens expression.toList →
      set = (w.registry.get? other).getD (.finite [])) :
    w.Completed expression (registry.insert other set) := by
  intro name member present
  rw [Registry.get?_insert]
  split
  next equal =>
    subst equal
    rw [same member]
  next differs =>
    refine completed name member ?_
    simpa [Registry.contains_insert, differs] using present

theorem Completed.temporary {registry : Registry} (completed : w.Completed expression registry)
    (n : Nat) (set : StoredSet) :
    w.Completed expression (registry.insert (temporaryName n) set) := by
  refine completed.insert fun member => ?_
  have plain := isTemporary_of_mem_tokens member
  rw [isTemporary_temporaryName] at plain
  cases plain

theorem keeps_completed (w : Workspace) (expression : String) :
    Keeps apply w expression fun v _ => w.Completed expression v.registry where
  execution completed executed := by rwa [(Extends.apply executed).registry]
  temporary completed executed := by
    rw [← (Extends.apply executed).registry] at completed
    exact completed.temporary _ _
  nothing completed := completed.temporary _ _
  whole {s operand} completed gathers := by
    obtain ⟨rest, visits⟩ := gathers.visits
    refine completed.insert fun member => ?_
    cases gathers.absent.symm.trans (visits.registered _ member)
  missing {v n name} completed _ _ absent := by
    have unknown : w.registry.get? name = none := by simpa [Registry.contains] using absent
    exact completed.insert fun _ => by rw [unknown, Option.getD_none]

end Workspace

/-! ### Combining operands -/

namespace Run

open Workspace (apply)

variable {r : Run}

/-- Combining two operands stores their union under the next temporary name. -/
theorem mergePair_spec (lucid : r.workspace.Lucid) {a b : String} {x y : StoredSet}
    (left : r.workspace.registry.get? a = some x) (right : r.workspace.registry.get? b = some y) :
    ∃ set, set.Regular ∧ (∀ z, set.contains z = (x.contains z || y.contains z)) ∧
      (r.mergePair apply a b).workspace.Lucid ∧ r.Leads (r.mergePair apply a b) ∧
      (r.mergePair apply a b).temporaries = r.temporaries + 1 ∧
      (r.mergePair apply a b).workspace.registry.get? (temporaryName r.temporaries) =
        some set := by
  obtain ⟨set, next, applied, regular, member, same, lucid'⟩ := lucid.apply_union left right
  have merged : (r.mergePair apply a b).workspace = next.store (temporaryName r.temporaries) set ∧
      (r.mergePair apply a b).temporaries = r.temporaries + 1 := by
    simp only [mergePair, applied]
    exact ⟨rfl, rfl⟩
  have stored : (r.mergePair apply a b).workspace.registry =
      r.workspace.registry.insert (temporaryName r.temporaries) set := by
    rw [merged.1, ← same]
    rfl
  have explains : (r.mergePair apply a b).workspace.explains = r.workspace.explains := by
    rw [merged.1, lucid.explains]
    exact lucid'.explains
  refine ⟨set, regular, member, ?_, (leads_store set merged.2 explains stored).1, merged.2, ?_⟩
  · rw [merged.1]
    exact lucid'.store _ regular
  · rw [stored, Registry.get?_insert, if_pos rfl]

/-- To what all operands are combined to belongs what belongs to one of them. -/
theorem mergeAll_spec (lucid : r.workspace.Lucid) {top : String} {below : List String}
    (registered : ∀ name ∈ top :: below, r.workspace.registry.contains name = true)
    (guarded : ∀ name ∈ below, r.Safe name) :
    ∃ last set, (r.mergeAll apply top below).stack = [last] ∧
      (r.mergeAll apply top below).workspace.find last = .ok set ∧
      ∀ z, set.contains z = true ↔
        ∃ name ∈ top :: below, (r.workspace.registry.get? name).any (·.contains z) = true := by
  induction below generalizing r top with
  | nil =>
    obtain ⟨set, found⟩ := Option.isSome_iff_exists.mp (registered top List.mem_cons_self)
    refine ⟨top, set, rfl, by simp [mergeAll, Workspace.find, found], fun z => by simp [found]⟩
  | cons next below ih =>
    obtain ⟨known, known', others⟩ : r.workspace.registry.contains top = true ∧
        r.workspace.registry.contains next = true ∧
        ∀ name ∈ below, r.workspace.registry.contains name = true := by
      simpa using registered
    obtain ⟨safe, guarded⟩ := List.forall_mem_cons.mp guarded
    obtain ⟨y, second⟩ := Option.isSome_iff_exists.mp known
    obtain ⟨x, first⟩ := Option.isSome_iff_exists.mp known'
    obtain ⟨set, -, member, lucid', leads, count, stored⟩ :=
      mergePair_spec (r := { r with stack := below }) lucid first second
    set merged := mergePair apply { r with stack := below } next top
    have kept : ∀ name ∈ below,
        merged.workspace.registry.get? name = r.workspace.registry.get? name :=
      fun name listed => leads.sets name (guarded name listed)
    have registered' : ∀ name ∈ temporaryName r.temporaries :: below,
        merged.workspace.registry.contains name = true := by
      refine List.forall_mem_cons.mpr ⟨by simp [Registry.contains, stored], fun name listed => ?_⟩
      rw [Registry.contains, kept name listed]
      exact others name listed
    obtain ⟨last, value, stack, found, all⟩ :=
      ih lucid' registered' fun name listed => (guarded name listed).mono leads.temporaries
    refine ⟨last, value, stack, found, fun z => (all z).trans ?_⟩
    have rest : (∃ name ∈ below, (merged.workspace.registry.get? name).any (·.contains z) = true) ↔
        ∃ name ∈ below, (r.workspace.registry.get? name).any (·.contains z) = true :=
      exists_congr fun name => and_congr_right fun listed => by rw [kept name listed]
    simp only [List.exists_mem_cons_iff, first, second, stored, rest, Option.any_some, member,
      Bool.or_eq_true]
    rw [or_comm (a := x.contains z = true), or_assoc]

/-- Recovery leaves a single operand, to which belongs what belongs to an operand left over. -/
theorem recover_spec (lucid : r.workspace.Lucid) (stocked : r.Stocked []) (guarded : r.Guarded) :
    ∃ last set, (r.recover apply).stack = [last] ∧
      (r.recover apply).workspace.find last = .ok set ∧ (r.stack = [] → set = .finite []) ∧
      ∀ z, set.contains z = true ↔
        ∃ name ∈ r.stack, (r.workspace.registry.get? name).any (·.contains z) = true := by
  unfold recover
  dsimp only
  split
  next stack =>
    have stack : r.stack = [] := stack
    refine ⟨temporaryName r.temporaries, .finite [], ?_, find_push _ _, fun _ => rfl, fun z => ?_⟩
    · simp [push, note, warn, stack]
    · simp [stack]
  next top below stack =>
    have stack : r.stack = top :: below := stack
    have registered : ∀ name ∈ top :: below, r.workspace.registry.contains name = true := by
      rw [← stack]
      exact fun name listed => stocked name (.inl listed)
    have safe : ∀ name ∈ below, r.Safe name := fun name listed =>
      guarded name (by simp [stack, listed])
    obtain ⟨last, set, alone, found, member⟩ :=
      mergeAll_spec (r := (r.warn _).note _ _ |>.note _ _) lucid registered safe
    refine ⟨last, set, alone, found, fun none => ?_, fun z => ?_⟩
    · cases stack.symm.trans none
    · rw [stack]
      exact member z

/-- A run that is concluded with explanations has an answer, to which belongs what belongs to an
operand left over. -/
theorem conclude_spec (lucid : r.workspace.Lucid) (stocked : r.Stocked []) (guarded : r.Guarded) :
    ∃ last set, (r.conclude apply).run.stack = [last] ∧
      (r.conclude apply).run.workspace.find last = .ok set ∧
      (r.conclude apply).result = .ok (.ofSet set) ∧ (r.stack = [] → set = .finite []) ∧
      ∀ z, set.contains z = true ↔
        ∃ name ∈ r.stack, (r.workspace.registry.get? name).any (·.contains z) = true := by
  have answered {s : Run} {last : String} {set : StoredSet} (alone : s.stack = [last])
      (found : s.workspace.find last = .ok set) : s.finish.run.stack = [last] ∧
        s.finish.run.workspace.find last = .ok set ∧ s.finish.result = .ok (.ofSet set) := by
    simp only [finish, alone, found]
    exact ⟨alone, found, rfl⟩
  by_cases several : r.stack.length ≠ 1
  · have recovered : r.conclude apply = (r.recover apply).finish := by
      simp [conclude, several, lucid.explains]
    obtain ⟨last, set, alone, found, none, member⟩ := recover_spec lucid stocked guarded
    obtain ⟨stack, found, result⟩ := answered alone found
    rw [recovered]
    exact ⟨last, set, stack, found, result, none, member⟩
  · have finished : r.conclude apply = r.finish := by simp [conclude, several]
    obtain ⟨last, stack⟩ := List.length_eq_one_iff.mp (not_not.mp several)
    obtain ⟨set, present⟩ := Option.isSome_iff_exists.mp (stocked last (.inl (by simp [stack])))
    have found : r.workspace.find last = .ok set := by simp [Workspace.find, present]
    obtain ⟨alone, found, result⟩ := answered stack found
    rw [finished]
    refine ⟨last, set, alone, found, result, fun none => ?_, fun z => by simp [stack, present]⟩
    cases stack.symm.trans none

end Run

namespace Workspace

theorem isMember_eq_ok_true {w : Workspace} {x : Element} {name : String} :
    w.isMember x name = .ok true ↔ (w.registry.get? name).any (·.contains x) = true := by
  unfold isMember find
  cases w.registry.get? name <;> simp [Except.map]

/-- With explanations, and if the symbolic sets are reliable, every evaluation is answered. If all
instructions are followed and leave some operands, unknown names standing for empty sets, then no
error is reported, and to the answer belongs what belongs to one of the operands at least. -/
theorem evaluate_recovers {w : Workspace} (explains : w.explains = true)
    (reliable : w.registry.Reliable) (text : String) :
    (∃ evaluation, (w.evaluate text).result = .ok evaluation) ∧
      ∀ s, w.Visits apply text s [] →
        (∀ name, .name name ∈ tokens text.toList → s.workspace.registry.get? name =
          some ((w.registry.get? name).getD (.finite []))) ∧
        ∃ value steps, (w.evaluate text).result = .ok ⟨.ofSet value, steps, none⟩ ∧
          (s.stack = [] → value = .finite []) ∧
          (s.stack ≠ [] → ∃ last,
            ((Run.start w).evaluateInfix apply text).run.stack = [last] ∧
            ((Run.start w).evaluateInfix apply text).run.workspace.find last = .ok value) ∧
          ∀ x, value.contains x = true ↔
            ∃ name ∈ s.stack, s.workspace.isMember x name = .ok true := by
  refine ⟨?_, fun s visits => ?_⟩
  · cases ended : ((Run.start w).evaluateInfix apply text).result with
    | ok answer =>
      obtain ⟨steps, -, result⟩ := evaluateBy_of_ok ended
      exact ⟨_, result⟩
    | error e =>
      obtain ⟨quiet, -⟩ | ⟨-, steps, result⟩ := evaluateBy_of_error ended
      · cases explains.symm.trans quiet
      · exact ⟨_, result⟩
  have lucid : s.workspace.Lucid := (keeps_lucid w text).visited
    ⟨explains, fun _ _ found => reliable.regular found⟩ visits
  have completed : w.Completed text s.workspace.registry :=
    (keeps_completed w text).visited (fun name _ present => by
      obtain ⟨set, found⟩ := Option.isSome_iff_exists.mp present
      rw [found, Option.getD_some]) visits
  refine ⟨fun name member => completed name member (visits.registered name member), ?_⟩
  rcases visits.evaluateInfix with concluded | ⟨nothing, r, answered⟩
  · obtain ⟨last, set, alone, found, result, none, member⟩ :=
      Run.conclude_spec lucid visits.stocked visits.guarded
    rw [concluded]
    obtain ⟨steps, -, result⟩ := evaluateBy_of_ok (by rwa [concluded])
    refine ⟨set, steps, result, none, fun _ => ⟨last, alone, found⟩, fun x => ?_⟩
    simp only [member, isMember_eq_ok_true]
  · obtain ⟨steps, -, result⟩ := evaluateBy_of_ok (congrArg Finished.result answered)
    exact ⟨.finite [], steps, result, fun _ => rfl, absurd nothing, fun x => by simp [nothing]⟩

/-- Three sets without an operation between them, one of which is unknown. -/
theorem evaluate_recovers_three :
    let w := standard.after apply [.addElements "A" [.text "a"], .setExplains true]
    w.registry.get? "X" = none ∧ ∃ value steps,
      (w.evaluate "A X N").result = .ok ⟨.ofSet value, steps, none⟩ ∧
        value.contains (.text "a") = true ∧ value.contains (.text "b") = false := by
  intro w
  have reliable : w.registry.Reliable := fun name set found =>
    .inl ⟨name, Registry.predefined_standard.insert "A" _ name set found⟩
  have read : tokens "A X N".toList = [.name "A", .name "X", .name "N"] := by cbv
  obtain ⟨prepared, defined⟩ : ∃ prepared, ((Run.start w).noteTokens "A X N").defineMissing
      (tokens "A X N".toList) = .ok prepared := by
    unfold Run.defineMissing
    rw [((Run.start w).noteTokens_frame "A X N").1]
    split <;> exact ⟨_, rfl⟩
  have ordered : prepared.instructions (tokens "A X N".toList) =
      .ok [.push "A", .push "X", .push "N"] := by
    rw [read]
    unfold Run.instructions
    simp only [List.any_cons, Bool.true_or, Bool.not_true, Bool.and_false]
    rfl
  obtain ⟨s, followed, stack⟩ := Run.followAll_pushes
    (prepared.noteConversion.notePostfix _).noteStart ["A", "X", "N"]
  have visits : w.Visits apply "A X N" s [] := ⟨prepared, _, defined, ordered, _, rfl, followed⟩
  have bottom : prepared.stack = [] := by
    rw [(Run.defineMissing_frame defined).1, ((Run.start w).noteTokens_frame "A X N").2.2]
    rfl
  have stack : s.stack = ["N", "X", "A"] := by
    rw [stack]
    exact congrArg _ bottom
  obtain ⟨-, left⟩ := evaluate_recovers rfl reliable "A X N"
  obtain ⟨same, value, steps, result, -, -, member⟩ := left s visits
  rw [read] at same
  simp only [stack, List.exists_mem_cons_iff, List.not_mem_nil, false_and, exists_false, or_false,
    isMember_eq_ok_true, same "A" (by simp), same "X" (by simp), same "N" (by simp)] at member
  refine ⟨by decide, value, steps, result, (member _).mpr (by decide), ?_⟩
  exact eq_false_of_ne_true fun belongs => absurd ((member _).mp belongs) (by decide)

end Workspace

end DiscreteMath.SetAlgebra
