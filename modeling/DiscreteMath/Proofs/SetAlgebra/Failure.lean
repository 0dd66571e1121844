import DiscreteMath.Proofs.SetAlgebra.Explaining
import DiscreteMath.Proofs.SetAlgebra.TermRun

/-!
# What a failed evaluation leaves behind

Without explanations a failed evaluation leaves the sets as they were, but for one case. A
complement without a universe registers one, and if the expression turns out to be malformed after
that, the universe stays. No other error can come then: all names of the expression stand for sets,
and there is a universe.

## Main definitions

* `Workspace.Kept` — a registry with no other change than such a universe.
* `Run.Stocked` — what is on the stack, and what will be, is registered.
* `Finished.Formal` — an error that is about the form of the expression, or the lack of a universe.
* `Progress.Orderly` — a run that goes on stocked, or ends with such an error at most.
-/

namespace DiscreteMath.SetAlgebra

/-- Temporary sets have no part in a universe. -/
theorem Registry.gathered_withoutTemporaries (registry : Registry) (operand : String) :
    registry.withoutTemporaries.gathered operand = registry.gathered operand := by
  unfold gathered
  rw [others_withoutTemporaries]
  refine congrArg (fun found : List (List Element) => distinct found.flatten) ?_
  refine List.filterMap_congr fun name member => ?_
  have plain := (List.mem_filter.mp member).2
  simp only [Bool.and_eq_true] at plain
  simp only [Registry.withoutTemporaries, Named.get?_filter _ _ (!isTemporary ·), plain.1, if_true]

/-! ### Sets -/

namespace Workspace

variable {w : Workspace} {expression : String} {registry : Registry}

/-- No set is removed on the way. -/
theorem keeps_contains (w : Workspace) (expression name : String) :
    Keeps apply w expression fun v _ => v.registry.contains name = true where
  execution present executed := by rwa [(Extends.apply executed).registry]
  temporary present executed := by
    rw [← (Extends.apply executed).registry] at present
    simp [store, withRegistry, Registry.contains_insert, present]
  nothing present := by simp [store, withRegistry, Registry.contains_insert, present]
  whole present _ := by simp [store, withRegistry, Registry.contains_insert, present]
  missing present _ _ _ := by simp [store, withRegistry, Registry.contains_insert, present]

namespace Gathers

variable {s : Run} {operand : String}

/-- If a universe is gathered, there was none at the start. -/
theorem absent_start (gathers : w.Gathers apply expression s operand) :
    w.registry.contains universeName = false := by
  obtain ⟨rest, visits⟩ := gathers.visits
  refine eq_false_of_ne_true fun present => ?_
  have stays := (keeps_contains w expression universeName).visited present visits
  cases gathers.absent.symm.trans stays

/-- What holds once the universe is registered, and is kept, holds in the end. -/
theorem ends {P : Workspace → Nat → Prop} (keeps : Keeps apply w expression P)
    (gathers : w.Gathers apply expression s operand)
    (h : P (s.workspace.store universeName (.finite (s.workspace.registry.gathered operand)))
      s.temporaries) :
    P ((Run.start w).evaluateInfix apply expression).run.workspace
      ((Run.start w).evaluateInfix apply expression).run.temporaries := by
  obtain ⟨⟨rest, visits⟩, ⟨below, stack⟩, absent, several, nonempty⟩ := gathers
  have spec := Run.chooseUniverse_spec { s with stack := below } operand
  simp only [Registry.serving_of_several absent several nonempty] at spec
  obtain ⟨next, chosen, same, -, count⟩ := spec
  have registered : P next.workspace next.temporaries := by rwa [same, count]
  have stepped : P (s.follow apply (.apply .complement)).run.workspace
      (s.follow apply (.apply .complement)).run.temporaries := by
    simp only [Run.follow, if_pos, Run.applyComplement, stack, chosen]
    exact keeps.operate (r := next.noteNumbered _ _) registered _ _ _ _
  refine keeps.ends visits (by simp) ?_
  unfold Run.followAll
  split
  next t followed =>
    rw [followed] at stepped
    exact keeps.followAll (r := t) stepped fun u left passes => visits.passes (passes.step followed)
  next outcome followed =>
    rw [followed] at stepped
    exact stepped

/-- If a universe is gathered, there is one in the end. -/
theorem registers (gathers : w.Gathers apply expression s operand) :
    ((Run.start w).evaluateInfix apply expression).run.workspace.registry.contains universeName =
      true :=
  gathers.ends (keeps_contains w expression universeName) (by
    simp [store, withRegistry, Registry.contains_insert])

end Gathers

/-- Apart from temporary sets, the registry is that of the workspace, or it has in addition the
universe that a complement in the expression has gathered. -/
def Kept (w : Workspace) (expression : String) (registry : Registry) : Prop :=
  registry.withoutTemporaries = w.registry.withoutTemporaries ∨
    ∃ s operand, w.Gathers apply expression s operand ∧
      registry.withoutTemporaries = w.registry.withoutTemporaries.insert universeName
        (.finite (w.registry.gathered operand))

theorem Kept.temporary (kept : w.Kept expression registry) (n : Nat) (set : StoredSet) :
    w.Kept expression (registry.insert (temporaryName n) set) := by
  unfold Kept
  rwa [Registry.withoutTemporaries_insert_temporary (isTemporary_temporaryName n)]

/-- As long as there is no universe nothing has changed. -/
theorem Kept.same (kept : w.Kept expression registry)
    (absent : registry.contains universeName = false) :
    registry.withoutTemporaries = w.registry.withoutTemporaries := by
  rcases kept with same | ⟨s, operand, -, added⟩
  · exact same
  · rw [← Registry.contains_withoutTemporaries isTemporary_universeName, added] at absent
    simp [Registry.contains_insert] at absent

theorem keeps_kept (quiet : w.explains = false) (expression : String) :
    Keeps apply w expression fun v _ => w.Kept expression v.registry where
  execution kept executed := by rwa [(Extends.apply executed).registry]
  temporary kept executed := by
    rw [← (Extends.apply executed).registry] at kept
    exact kept.temporary _ _
  nothing kept := kept.temporary _ _
  whole {s operand} kept gathers := by
    have same := kept.same gathers.absent
    have gathered : s.workspace.registry.gathered operand = w.registry.gathered operand := by
      rw [← Registry.gathered_withoutTemporaries, same, Registry.gathered_withoutTemporaries]
    refine .inr ⟨s, operand, gathers, ?_⟩
    rw [gathered, store, withRegistry, Registry.withoutTemporaries_insert isTemporary_universeName,
      same]
  missing _ explains := by cases quiet.symm.trans explains

end Workspace

/-! ### Errors -/

/-- An error is about the form of the expression, or there is no universe. -/
def Finished.Formal (f : Finished) : Prop :=
  ∀ e, f.result = .error e → (∃ fault, e = .malformedExpression fault) ∨
    f.run.workspace.registry.contains universeName = false

/-- What is on the stack and what the instructions will put there is registered. -/
def Run.Stocked (r : Run) (instructions : List Instruction) : Prop :=
  ∀ name, name ∈ r.stack ∨ .push name ∈ instructions →
    r.workspace.registry.contains name = true

/-- The run goes on with registered sets, or it ends without an error about sets. -/
def Progress.Orderly (rest : List Instruction) : Progress → Prop
  | running s => s.Stocked rest
  | finished outcome => outcome.Formal

theorem Workspace.exists_apply {w : Workspace} {a b : String}
    (left : w.registry.contains a = true) (right : w.registry.contains b = true)
    (op : Operation) : ∃ value next, w.apply op a b = .ok (value, next) := by
  obtain ⟨x, found⟩ := Option.isSome_iff_exists.mp left
  obtain ⟨y, found'⟩ := Option.isSome_iff_exists.mp right
  rw [apply_eq, compute, operand_eq found, operand_eq found']
  exact ⟨_, _, rfl⟩

namespace Run

open Workspace (apply)

variable {r : Run} {rest : List Instruction}

theorem formal_malformed (r : Run) (fault : FormFault) :
    (r.failed (.malformedExpression fault)).Formal :=
  fun _ same => .inl ⟨fault, (Except.error.inj same).symm⟩

theorem formal_answered (r : Run) (answer : Answer) : (r.answered answer).Formal := nofun

theorem Stocked.pop (stocked : r.Stocked rest) {top : String} {below : List String}
    (stack : r.stack = top :: below) :
    r.workspace.registry.contains top = true ∧ { r with stack := below }.Stocked rest :=
  ⟨stocked top (.inl (by simp [stack])), fun name known =>
    stocked name (known.imp_left fun member => by simp [stack, member])⟩

theorem orderly_operate (stocked : r.Stocked rest) {a b : String}
    (left : r.workspace.registry.contains a = true)
    (right : r.workspace.registry.contains b = true) (op : Operation) (remark : String) :
    (r.operate apply op a b remark).Orderly rest := by
  obtain ⟨value, next, applied⟩ := Workspace.exists_apply left right op
  have same := (Workspace.Extends.apply applied).registry
  unfold operate
  cases value with
  | relation x y verdict =>
    simp only [applied]
    exact formal_answered _ _
  | set set =>
    simp only [applied]
    intro name known
    change (next.registry.insert (temporaryName r.temporaries) set).contains name = true
    rw [same, Registry.contains_insert, Bool.or_eq_true, beq_iff_eq]
    rcases known with top | pushed
    · exact (List.mem_cons.mp top).imp_right fun member => stocked name (.inl member)
    · exact .inr (stocked name (.inr pushed))

/-- There is no universe, or the one that is chosen is registered. -/
theorem chooseUniverse_cases (stocked : r.Stocked rest) (operand : String) :
    (∃ e, r.chooseUniverse operand = .error e ∧
        r.workspace.registry.contains universeName = false) ∨
      ∃ next whole, r.chooseUniverse operand = .ok (next, whole) ∧ next.Stocked rest ∧
        next.workspace.registry.contains whole = true ∧
        ∀ name, r.workspace.registry.contains name = true →
          next.workspace.registry.contains name = true := by
  have spec := r.chooseUniverse_spec operand
  cases serving : r.workspace.registry.serving operand with
  | none =>
    simp only [serving] at spec
    exact .inl ⟨_, spec, Registry.absent_of_serving serving⟩
  | some served =>
    right
    obtain ⟨whole, none | elements⟩ := served
    · simp only [serving] at spec
      exact ⟨r, whole, spec, stocked, Registry.contains_of_serving serving, fun _ => id⟩
    · simp only [serving] at spec
      obtain ⟨next, chosen, same, stack, -⟩ := spec
      refine ⟨next, whole, chosen, fun name known => ?_, ?_, fun name present => ?_⟩
      · rw [stack] at known
        simp [same, Workspace.store, Workspace.withRegistry, Registry.contains_insert,
          stocked name known]
      · simp [same, Workspace.store, Workspace.withRegistry, Registry.contains_insert]
      · simp [same, Workspace.store, Workspace.withRegistry, Registry.contains_insert, present]

theorem orderly_applyComplement (stocked : r.Stocked rest) :
    (r.applyComplement apply).Orderly rest := by
  unfold applyComplement
  split
  next => exact formal_malformed r _
  next operand below stack =>
    obtain ⟨present, popped⟩ := stocked.pop stack
    rcases chooseUniverse_cases popped operand with
      ⟨e, chosen, absent⟩ | ⟨next, whole, chosen, stocked', present', kept⟩
    · simp only [chosen]
      exact fun _ _ => .inr absent
    · simp only [chosen]
      have left := kept operand present
      exact orderly_operate (r := next.noteNumbered _ _) stocked' left present' _ _

theorem orderly_applyBinary (stocked : r.Stocked rest) (op : Operation) :
    (r.applyBinary apply op).Orderly rest := by
  unfold applyBinary
  split
  next b a below stack =>
    obtain ⟨right, popped⟩ := stocked.pop stack
    obtain ⟨left, popped⟩ := popped.pop rfl
    exact orderly_operate (r := noteNumbered { r with stack := below } _ _) popped left right _ _
  next => exact formal_malformed r _

theorem orderly_follow {i : Instruction} (stocked : r.Stocked (i :: rest)) :
    (r.follow apply i).Orderly rest := by
  have later : r.Stocked rest := fun name known =>
    stocked name (known.imp_right (List.mem_cons_of_mem i))
  cases i with
  | push name =>
    intro other known
    rcases known with member | pushed
    · rcases List.mem_cons.mp member with rfl | member
      · exact stocked other (.inr List.mem_cons_self)
      · exact later other (.inl member)
    · exact later other (.inr pushed)
  | apply op =>
    unfold follow
    dsimp only
    split
    · exact orderly_applyComplement later
    · exact orderly_applyBinary later op

/-- Following instructions ends with registered sets on the stack, or without an error about
sets. -/
theorem orderly_followAll {instructions : List Instruction} (stocked : r.Stocked instructions) :
    (r.followAll apply instructions).Orderly [] := by
  induction instructions generalizing r with
  | nil => exact stocked
  | cons i rest ih =>
    have next := orderly_follow stocked
    unfold followAll
    split
    next s followed => exact ih (by rwa [followed] at next)
    next outcome followed => rwa [followed] at next

theorem formal_finish (stocked : r.Stocked []) : r.finish.Formal := by
  unfold finish
  split
  next last stack =>
    obtain ⟨set, found⟩ :=
      Option.isSome_iff_exists.mp (stocked last (.inl (by simp [stack])))
    have found : r.workspace.find last = .ok set := by simp [Workspace.find, found]
    simp only [found]
    exact formal_answered _ _
  next => exact formal_malformed r _

theorem formal_evaluate {instructions : List Instruction} (stocked : r.Stocked instructions) :
    (r.evaluate apply instructions).Formal := by
  have ended := orderly_followAll (r := r.noteStart) stocked
  unfold evaluate
  split
  next last followed =>
    rw [followed] at ended
    unfold conclude
    split
    next several =>
      simp only [Bool.and_eq_true, decide_eq_true_eq] at several
      obtain ⟨answer, answered⟩ := (single_recover apply several.1).finish
      intro e failed
      cases answered.symm.trans failed
    next => exact formal_finish ended
  next outcome followed => rwa [followed] at ended

/-- Without explanations no set is registered as empty. -/
theorem defineMissing_of_quiet (quiet : r.workspace.explains = false) {found : List Token}
    {s : Run} (defined : r.defineMissing found = .ok s) : r.undefinedNames found = [] ∧ s = r := by
  unfold defineMissing at defined
  split at defined
  next none => exact ⟨none, (Except.ok.inj defined).symm⟩
  next =>
    rw [quiet] at defined
    cases defined

end Run

namespace Workspace

variable {w : Workspace} {expression : String}

/-- Without explanations an evaluation ends before anything is registered, or an error of it is
about the form of the expression or the lack of a universe. -/
theorem formal_or_same (quiet : w.explains = false) (expression : String) :
    ((Run.start w).evaluateInfix apply expression).run.workspace = w ∨
      ((Run.start w).evaluateInfix apply expression).Formal := by
  obtain ⟨same, -, bottom⟩ := (Run.start w).noteTokens_frame expression
  rcases (Run.start w).evaluateInfix_cases apply expression with
    ⟨s, result, ended, same', -, -⟩ | ⟨s, defined, next⟩
  · exact .inl (by rw [ended]; exact same')
  obtain ⟨none, rfl⟩ := Run.defineMissing_of_quiet (by rwa [same]) defined
  rcases next with ⟨e, ended⟩ | ⟨instructions, ordered, ended⟩
  · exact .inl (by rw [ended]; exact same)
  · rw [ended]
    refine .inr (Run.formal_evaluate fun name known => ?_)
    change name ∈ ((Run.start w).noteTokens expression).stack ∨ _ at known
    rw [bottom] at known
    have pushed := known.resolve_left (by simp [Run.start])
    have registered := Run.undefinedNames_eq_nil.mp none
    rcases Run.instructions_cases _ (tokens expression.toList) with alike | ⟨explains, -⟩
    · rw [alike] at ordered
      exact registered name (token_mem_of_toPostfix ordered _ pushed)
    · rw [same] at explains
      cases quiet.symm.trans explains

/-- Without explanations a failed evaluation leaves the sets that are not temporary as they were,
unless a complement in it has gathered a universe before. Then the expression is malformed, and the
universe stays. -/
theorem evaluate_failed (quiet : w.explains = false) {e : SetError}
    (failed : (w.evaluate expression).result = .error e) :
    ((w.evaluate expression).workspace.registry = w.registry.withoutTemporaries ∧
        ∀ s operand, ¬ w.Gathers apply expression s operand) ∨
      (∃ fault, e = .malformedExpression fault) ∧
        w.registry.contains universeName = false ∧
        ∃ s operand, w.Gathers apply expression s operand ∧
          (w.evaluate expression).workspace.registry = w.registry.withoutTemporaries.insert
            universeName (.finite (w.registry.gathered operand)) := by
  have kept := (keeps_kept quiet expression).evaluateInfix (.inl rfl)
  have ended : ((Run.start w).evaluateInfix apply expression).result = .error e := by
    rw [evaluate, evaluateBy_of_quiet apply quiet] at failed
    cases ended : ((Run.start w).evaluateInfix apply expression).result with
    | error other =>
      simp only [ended, Except.map, Except.error.injEq] at failed
      rw [failed]
    | ok answer => simp only [ended, Except.map, reduceCtorEq] at failed
  rw [evaluate, evaluateBy_workspace, registry_dropTemporaries]
  rcases kept with same | ⟨s, operand, gathers, added⟩
  · refine .inl ⟨same, fun s operand gathers => ?_⟩
    have absent := gathers.absent_start
    rw [← Registry.contains_withoutTemporaries isTemporary_universeName, ← same,
      Registry.contains_withoutTemporaries isTemporary_universeName, gathers.registers] at absent
    cases absent
  · refine .inr ⟨?_, gathers.absent_start, s, operand, gathers, added⟩
    rcases formal_or_same quiet expression with same | formal
    · have present := gathers.registers
      rw [same, gathers.absent_start] at present
      cases present
    · refine (formal e ended).resolve_right fun absent => ?_
      cases absent.symm.trans gathers.registers

/-- A complement and a set behind it are malformed. The complement is taken away again. -/
theorem evaluate_failed_two_sets :
    let w := (ofRegistry .empty).after apply [.addElements "U" [.text "a", .text "b"],
      .addElements "A" [.text "a"]]
    (w.evaluate "Aᶜ A").result = .error (.malformedExpression .notOneValue) ∧
      (w.evaluate "Aᶜ A").workspace.registry = w.registry.withoutTemporaries := by
  intro w
  have failed : (w.evaluate "Aᶜ A").result = .error (.malformedExpression .notOneValue) := by cbv
  refine ⟨failed, ((evaluate_failed rfl failed).resolve_right ?_).1⟩
  rintro ⟨-, absent, -⟩
  have present : w.registry.contains universeName = true := by cbv
  cases absent.symm.trans present

/-- The universe of a complement stays, though the union behind it lacks an operand. -/
theorem evaluate_failed_registers :
    let w := (ofRegistry .empty).after apply [.addElements "A" [.text "a"],
      .addElements "B" [.text "b"], .addElements "D" [.text "d"]]
    w.explains = false ∧
      (w.evaluate "Aᶜ ∪").result = .error (.malformedExpression (.noOperandsFor "∪")) ∧
      isTemporary "U" = false ∧ w.registry.get? "U" = none ∧
      (w.evaluate "Aᶜ ∪").workspace.registry.get? "U" =
        some (.finite [.text "b", .text "d"]) := by
  refine ⟨rfl, ?_, by decide, ?_, ?_⟩ <;> cbv

end Workspace

end DiscreteMath.SetAlgebra
