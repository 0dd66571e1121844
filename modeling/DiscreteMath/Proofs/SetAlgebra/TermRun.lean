import DiscreteMath.Proofs.SetAlgebra.Recall
import DiscreteMath.Proofs.SetAlgebra.Term

/-!
# Running the postfix order of a term

The instructions of a term leave on the stack a set that is composed as the term is, and leave
alone what was registered and what was on the stack before.

## Main definitions

* `Term.operand?` — the set of a term, by the operations on sets.
* `Run.Safe` — the names that a run does not store under any more.
* `Run.Leads` — a run goes on without touching what is safe.
* `Finished.Gives` — a run ends with a set as its only operand and answer.
-/

namespace DiscreteMath.SetAlgebra

def Value.operand? : Value → Option Operand
  | .set value => some ⟨value.enclosed, value⟩
  | .relation .. => none

theorem Value.operand?_eq_some {value : Value} {x : Operand} (h : value.operand? = some x) :
    ∃ set, value = .set set ∧ ⟨set.enclosed, set⟩ = x := by
  cases value with
  | set set => exact ⟨set, rfl, Option.some.inj h⟩
  | relation => cases h

namespace Term

def operand? (registry : Registry) : Term → Option Operand
  | name letter => (registry.get? letter).map (⟨letter, ·⟩)
  | complement t => do
    let x ← t.operand? registry
    let whole ← registry.get? universeName
    (combine .complement x ⟨universeName, whole⟩).operand?
  | binary op _ l r => do
    let x ← l.operand? registry
    let y ← r.operand? registry
    (combine op x y).operand?

end Term

namespace Workspace

theorem operand_eq {w : Workspace} {name : String} {set : StoredSet}
    (found : w.registry.get? name = some set) :
    w.operand name = .ok ⟨if isTemporary name then set.enclosed else name, set⟩ := by
  simp only [operand, find, label, found, Except.map]

end Workspace

namespace Run

/-- The name is not temporary, or it is that of a temporary set already stored. -/
def Safe (r : Run) (name : String) : Prop :=
  isTemporary name = false ∨ ∃ k < r.temporaries, name = temporaryName k

/-- The second run has gone on from the first without touching what is safe. -/
structure Leads (r s : Run) : Prop where
  temporaries : r.temporaries ≤ s.temporaries
  explains : s.workspace.explains = r.workspace.explains
  sets : ∀ name, r.Safe name → s.workspace.registry.get? name = r.workspace.registry.get? name

variable {r s t : Run}

theorem Safe.mono {name : String} (safe : r.Safe name) (le : r.temporaries ≤ s.temporaries) :
    s.Safe name := by
  rcases safe with plain | ⟨k, lt, named⟩
  · exact .inl plain
  · exact .inr ⟨k, Nat.lt_of_lt_of_le lt le, named⟩

theorem Leads.trans (first : r.Leads s) (second : s.Leads t) : r.Leads t where
  temporaries := Nat.le_trans first.temporaries second.temporaries
  explains := second.explains.trans first.explains
  sets name safe := (second.sets name (safe.mono first.temporaries)).trans (first.sets name safe)

theorem Leads.operand (leads : r.Leads s) {name : String} (safe : r.Safe name) :
    s.workspace.operand name = r.workspace.operand name := by
  simp only [Workspace.operand, Workspace.find, Workspace.label, leads.sets name safe]

theorem safe_ne_temporaryName {name : String} (safe : r.Safe name) :
    name ≠ temporaryName r.temporaries := by
  rintro rfl
  rcases safe with plain | ⟨k, lt, named⟩
  · simp at plain
  · have := temporaryName_injective named
    omega

/-- Storing a set under the next temporary name. -/
theorem leads_store (set : StoredSet) (count : s.temporaries = r.temporaries + 1)
    (explains : s.workspace.explains = r.workspace.explains)
    (stored : s.workspace.registry =
      r.workspace.registry.insert (temporaryName r.temporaries) set) :
    r.Leads s ∧ s.Safe (temporaryName r.temporaries) ∧
      s.workspace.operand (temporaryName r.temporaries) = .ok ⟨set.enclosed, set⟩ := by
  refine ⟨⟨by omega, explains, fun name safe => ?_⟩, .inr ⟨_, by omega, rfl⟩, ?_⟩
  · rw [stored, Registry.get?_insert, if_neg (safe_ne_temporaryName safe)]
  · have found : s.workspace.registry.get? (temporaryName r.temporaries) = some set := by
      rw [stored, Registry.get?_insert, if_pos rfl]
    rw [Workspace.operand_eq found, isTemporary_temporaryName, if_pos rfl]

theorem followAll_cons_of_running {execute : Workspace.Executor} {i : Instruction}
    (next : r.follow execute i = .running s) (rest : List Instruction) :
    r.followAll execute (i :: rest) = s.followAll execute rest := by
  simp only [followAll, next]

theorem followAll_cons_of_finished {execute : Workspace.Executor} {i : Instruction}
    {outcome : Finished} (next : r.follow execute i = .finished outcome)
    (rest : List Instruction) : r.followAll execute (i :: rest) = .finished outcome := by
  simp only [followAll, next]

/-- An operation on two sets at hand that gives a set. -/
theorem operate_set {op : Operation} {a b : String} {x y : Operand} {set : StoredSet}
    (left : r.workspace.operand a = .ok x) (right : r.workspace.operand b = .ok y)
    (value : combine op x y = .set set) (remark : String) :
    ∃ s top, r.operate Workspace.applyAnew op a b remark = .running s ∧ s.stack = top :: r.stack ∧
      r.Leads s ∧ s.Safe top ∧ s.workspace.operand top = .ok ⟨set.enclosed, set⟩ := by
  simp only [operate, Workspace.applyAnew, Workspace.compute, left, right, value, bind,
    Except.bind, pure, Except.pure]
  refine ⟨_, temporaryName r.temporaries, rfl, rfl, leads_store set rfl rfl rfl⟩

/-- An operation on two sets at hand that gives a relation. -/
theorem operate_relation {op : Operation} {a b : String} {x y : Operand} {subset superset : String}
    {verdict : Verdict} (left : r.workspace.operand a = .ok x)
    (right : r.workspace.operand b = .ok y)
    (value : combine op x y = .relation subset superset verdict) (remark : String) :
    ∃ s : Run, r.operate Workspace.applyAnew op a b remark =
      .finished (s.answered (.relation subset superset verdict)) := by
  simp only [operate, Workspace.applyAnew, Workspace.compute, left, right, value, bind,
    Except.bind, pure, Except.pure]
  exact ⟨_, rfl⟩

variable {registry : Registry}

def Keeping (r : Run) (registry : Registry) : Prop :=
  ∀ name, isTemporary name = false → r.workspace.registry.get? name = registry.get? name

theorem Keeping.leads (keeping : r.Keeping registry) (leads : r.Leads s) : s.Keeping registry :=
  fun name plain => (leads.sets name (.inl plain)).trans (keeping name plain)

/-- Following the instructions of a term puts the name of its set on the stack. -/
theorem followAll_term {t : Term} {x : Operand} (plain : ∀ name ∈ t.names, isTemporary name = false)
    (value : t.operand? registry = some x) :
    ∀ r : Run, r.Keeping registry → ∃ s top, s.stack = top :: r.stack ∧ r.Leads s ∧ s.Safe top ∧
      s.workspace.operand top = .ok x ∧ ∀ rest,
        r.followAll Workspace.applyAnew (t.instructions ++ rest) =
          s.followAll Workspace.applyAnew rest := by
  induction t generalizing x with
  | name letter =>
    intro r keeping
    have safe : isTemporary letter = false := plain letter (by simp [Term.names])
    obtain ⟨set, found, rfl⟩ := Option.map_eq_some_iff.mp value
    refine ⟨r.pushName letter, letter, rfl, ⟨Nat.le_refl _, rfl, fun _ _ => rfl⟩, .inl safe, ?_,
      fun rest => followAll_cons_of_running rfl rest⟩
    have operand := Workspace.operand_eq ((keeping letter safe).trans found)
    rwa [safe] at operand
  | complement t ih =>
    intro r keeping
    simp only [Term.operand?, bind, Option.bind_eq_some_iff] at value
    obtain ⟨y, inner, whole, found, value⟩ := value
    obtain ⟨s, a, stack, leads, safe, operand, run⟩ := ih plain inner r keeping
    obtain ⟨set, combined, rfl⟩ := Value.operand?_eq_some value
    have present := (keeping.leads leads universeName isTemporary_universeName).trans found
    have universal : s.workspace.operand universeName = .ok ⟨universeName, whole⟩ := by
      have operand := Workspace.operand_eq present
      rwa [isTemporary_universeName] at operand
    have contains : s.workspace.registry.contains universeName = true := by
      simp only [Registry.contains, present, Option.isSome_some]
    obtain ⟨last, top, executed, stack', leads', safe', operand'⟩ :=
      operate_set (r := { s with stack := r.stack }.noteNumbered _ _) operand universal combined _
    refine ⟨last, top, stack', leads.trans ⟨leads'.temporaries, leads'.explains, leads'.sets⟩,
      safe', operand', fun rest => ?_⟩
    simp only [Term.instructions, List.append_assoc, List.cons_append, List.nil_append, run]
    refine followAll_cons_of_running ?_ rest
    simp only [follow, if_pos, applyComplement, stack, chooseUniverse, contains]
    exact executed
  | binary op proper left right ihLeft ihRight =>
    intro r keeping
    simp only [Term.operand?, bind, Option.bind_eq_some_iff] at value
    obtain ⟨y, first, z, second, value⟩ := value
    obtain ⟨s, a, stack, leads, safe, operand, run⟩ :=
      ihLeft (fun name member => plain name (by simp [Term.names, member])) first r keeping
    obtain ⟨s', b, stack', leads', safe', operand', run'⟩ :=
      ihRight (fun name member => plain name (by simp [Term.names, member])) second s
        (keeping.leads leads)
    obtain ⟨set, combined, rfl⟩ := Value.operand?_eq_some value
    have first : s'.workspace.operand a = .ok y := (leads'.operand safe).trans operand
    obtain ⟨last, top, executed, stack'', leads'', safe'', operand''⟩ :=
      operate_set (r := { s' with stack := r.stack }.noteNumbered _ _) first operand' combined ""
    refine ⟨last, top, stack'',
      leads.trans (leads'.trans ⟨leads''.temporaries, leads''.explains, leads''.sets⟩), safe'',
      operand'', fun rest => ?_⟩
    simp only [Term.instructions, List.append_assoc, List.cons_append, List.nil_append, run, run']
    refine followAll_cons_of_running ?_ rest
    simp only [follow, if_neg proper, applyBinary, stack', stack]
    exact executed

/-- Following the instructions of an inclusion ends the run with its verdict, whatever comes
after. -/
theorem followAll_inclusion {l t : Term} {x y : Operand} {verdict : Verdict}
    (plain : ∀ name ∈ l.names ++ t.names, isTemporary name = false)
    (left : l.operand? registry = some x) (right : t.operand? registry = some y)
    (combined : combine .subset x y = .relation x.label y.label verdict) {r : Run}
    (keeping : r.Keeping registry) (rest : List Instruction) :
    ∃ s : Run, r.followAll Workspace.applyAnew
        (l.instructions ++ t.instructions ++ .apply .subset :: rest) =
      .finished (s.answered (.relation x.label y.label verdict)) := by
  obtain ⟨s, a, stack, leads, safe, operand, run⟩ :=
    followAll_term (fun name member => plain name (List.mem_append_left _ member)) left r keeping
  obtain ⟨s', b, stack', leads', -, operand', run'⟩ :=
    followAll_term (fun name member => plain name (List.mem_append_right _ member)) right s
      (keeping.leads leads)
  have known : s'.workspace.operand a = .ok x := (leads'.operand safe).trans operand
  obtain ⟨last, executed⟩ :=
    operate_relation (r := { s' with stack := r.stack }.noteNumbered _ _) known operand'
      combined ""
  have proper : Operation.subset ≠ .complement := by decide
  have next : s'.follow Workspace.applyAnew (.apply .subset) =
      .finished (last.answered (.relation x.label y.label verdict)) := by
    simp only [follow, if_neg proper, applyBinary, stack', stack]
    exact executed
  exact ⟨last, by simp only [List.append_assoc, run, run', followAll_cons_of_finished next]⟩

end Run

/-! ### Texts -/

namespace Run

theorem undefinedNames_of_registered {r : Run} {found : List Token}
    (registered : ∀ name, .name name ∈ found → r.workspace.registry.contains name = true) :
    r.undefinedNames found = [] := by
  unfold undefinedNames
  rw [List.filterMap_eq_nil_iff.mpr fun token member => ?_]
  · rfl
  · split
    next letter => rw [if_pos (registered letter member)]
    next => rfl

/-- If all names of an expression are registered, the run is prepared as it is. -/
theorem defineMissing_of_registered {w : Workspace} {text : String}
    (registered : ∀ name, .name name ∈ tokens text.toList → w.registry.contains name = true) :
    ((Run.start w).noteTokens text).defineMissing (tokens text.toList) =
      .ok ((Run.start w).noteTokens text) := by
  have same := ((Run.start w).noteTokens_frame text).1
  have undefined : ((Run.start w).noteTokens text).undefinedNames (tokens text.toList) = [] := by
    refine undefinedNames_of_registered fun name member => ?_
    rw [same]
    exact registered name member
  simp only [defineMissing, undefined]

theorem instructions_of_quiet {r : Run} (quiet : r.workspace.explains = false)
    (found : List Token) : r.instructions found = toPostfix found := by
  simp only [instructions, quiet, Bool.false_and, Bool.false_eq_true, if_false]

/-- If all names of an expression are registered, it is brought into postfix order and the
instructions are followed. -/
theorem evaluateInfix_eq (execute : Workspace.Executor) {w : Workspace} {text : String}
    (quiet : w.explains = false) (some : tokens text.toList ≠ [])
    (registered : ∀ name, .name name ∈ tokens text.toList → w.registry.contains name = true) :
    let r := ((Run.start w).noteTokens text).noteConversion
    (Run.start w).evaluateInfix execute text = match toPostfix (tokens text.toList) with
      | .error e => r.failed e
      | .ok instructions => (r.notePostfix instructions).evaluate execute instructions := by
  have quiet : ((Run.start w).noteTokens text).noteConversion.workspace.explains = false := by
    change ((Run.start w).noteTokens text).workspace.explains = false
    rwa [((Run.start w).noteTokens_frame text).1]
  unfold evaluateInfix
  cases found : toPostfix (tokens text.toList) <;>
    simp only [List.isEmpty_eq_false_iff.mpr some, Bool.false_eq_true, if_false,
      defineMissing_of_registered registered, instructions_of_quiet quiet, found]

theorem evaluateInfix_registered (execute : Workspace.Executor) {w : Workspace} {text : String}
    (quiet : w.explains = false) (some : tokens text.toList ≠ [])
    (registered : ∀ name, .name name ∈ tokens text.toList → w.registry.contains name = true) :
    ∃ r : Run, r.workspace = w ∧ r.stack = [] ∧ r.temporaries = 0 ∧
      (Run.start w).evaluateInfix execute text = match toPostfix (tokens text.toList) with
        | .error e => r.failed e
        | .ok instructions => (r.notePostfix instructions).evaluate execute instructions := by
  obtain ⟨same, count, stack⟩ := (Run.start w).noteTokens_frame text
  exact ⟨((Run.start w).noteTokens text).noteConversion, same, stack, count,
    evaluateInfix_eq execute quiet some registered⟩

/-- The evaluation of a text that writes a term follows the instructions of the term. -/
theorem evaluateInfix_written (execute : Workspace.Executor) {w : Workspace} {text : String}
    {t : Term} (quiet : w.explains = false) (written : t.Written 1 (tokens text.toList))
    (registered : ∀ name ∈ t.names, w.registry.contains name = true) :
    ∃ r : Run, r.workspace = w ∧ r.stack = [] ∧ r.temporaries = 0 ∧
      (Run.start w).evaluateInfix execute text = r.evaluate execute t.instructions := by
  obtain ⟨r, same, stack, count, evaluated⟩ :=
    evaluateInfix_registered execute quiet written.ne_nil fun name member =>
      registered name ((written.mem_names name).mp member)
  rw [toPostfix_written written] at evaluated
  exact ⟨r.notePostfix t.instructions, same, stack, count, evaluated⟩

theorem contains_of_operand? {registry : Registry} {t : Term} {x : Operand}
    (value : t.operand? registry = some x) : ∀ name ∈ t.names, registry.contains name = true := by
  induction t generalizing x with
  | name letter =>
    obtain ⟨set, found, -⟩ := Option.map_eq_some_iff.mp value
    simp [Term.names, Registry.contains, found]
  | complement t ih =>
    simp only [Term.operand?, bind, Option.bind_eq_some_iff] at value
    obtain ⟨y, inner, -⟩ := value
    exact ih inner
  | binary op proper l r ihLeft ihRight =>
    simp only [Term.operand?, bind, Option.bind_eq_some_iff] at value
    obtain ⟨y, first, z, second, -⟩ := value
    intro name member
    rcases List.mem_append.mp member with left | right
    · exact ihLeft first name left
    · exact ihRight second name right

/-- The evaluation of a text that writes a term ends with the set of the term on the stack. -/
theorem evaluateInfix_term {w : Workspace} {text : String} {t : Term} {x : Operand}
    (quiet : w.explains = false) (written : t.Written 1 (tokens text.toList))
    (value : t.operand? w.registry = some x) :
    ∃ (s : Run) (top : String), (Run.start w).evaluateInfix Workspace.applyAnew text = s.finish ∧
      s.stack = [top] ∧ s.workspace.operand top = .ok x := by
  obtain ⟨r, rfl, empty, -, evaluated⟩ :=
    evaluateInfix_written Workspace.applyAnew quiet written (contains_of_operand? value)
  have plain : ∀ name ∈ t.names, isTemporary name = false := fun name member =>
    isTemporary_of_mem_tokens ((written.mem_names name).mpr member)
  obtain ⟨s, top, stack, leads, -, operand, run⟩ :=
    followAll_term plain value r.noteStart fun _ _ => rfl
  have run := run []
  rw [List.append_nil] at run
  have single : s.stack = [top] := by rw [stack]; exact congrArg _ empty
  refine ⟨s, top, ?_, single, operand⟩
  rw [evaluated]
  simp only [evaluate, run, followAll, conclude, single, List.length_singleton, ne_eq,
    not_true_eq_false, decide_false, Bool.false_and, Bool.false_eq_true, if_false]

/-- The evaluation of a text that writes an inclusion ends with its verdict. -/
theorem evaluateInfix_inclusion {w : Workspace} {text : String} {l r : Term} {x y : Operand}
    (quiet : w.explains = false)
    (written : (Term.binary .subset (by decide) l r).Written 1 (tokens text.toList))
    (left : l.operand? w.registry = some x) (right : r.operand? w.registry = some y)
    {verdict : Verdict} (combined : combine .subset x y = .relation x.label y.label verdict) :
    ((Run.start w).evaluateInfix Workspace.applyAnew text).result =
      .ok (.relation x.label y.label verdict) := by
  have registered : ∀ name ∈ (Term.binary .subset (by decide) l r).names,
      w.registry.contains name = true := by
    intro name member
    rcases List.mem_append.mp member with member | member
    · exact contains_of_operand? left name member
    · exact contains_of_operand? right name member
  obtain ⟨first, rfl, -, -, evaluated⟩ :=
    evaluateInfix_written Workspace.applyAnew quiet written registered
  have plain : ∀ name ∈ (Term.binary .subset (by decide) l r).names, isTemporary name = false :=
    fun name member => isTemporary_of_mem_tokens ((written.mem_names name).mpr member)
  obtain ⟨last, run⟩ :=
    followAll_inclusion plain left right combined (r := first.noteStart) (fun _ _ => rfl) []
  rw [evaluated, evaluate]
  simp only [Term.instructions, run]
  rfl

theorem finish_of_operand {s : Run} {top : String} {x : Operand} (stack : s.stack = [top])
    (operand : s.workspace.operand top = .ok x) :
    s.workspace.find top = .ok x.set ∧ s.finish.result = .ok (.ofSet x.set) ∧
      s.finish.run.stack = [top] := by
  have found : s.workspace.find top = .ok x.set := by
    cases found : s.workspace.find top with
    | error e => simp [Workspace.operand, found, Except.map] at operand
    | ok set =>
      simp only [Workspace.operand, found, Except.map, Except.ok.injEq] at operand
      rw [← operand]
  refine ⟨found, ?_⟩
  simp only [finish, stack, found]
  exact ⟨rfl, stack⟩

end Run

/-- The only operand at hand in the end is the set, and that is the answer. -/
def Finished.Gives (f : Finished) (set : StoredSet) : Prop :=
  ∃ top, f.run.stack = [top] ∧ f.run.workspace.find top = .ok set ∧ f.result = .ok (.ofSet set)

theorem Finished.Gives.of_bare {f g : Finished} {set : StoredSet} (same : f.bare = g.bare)
    (gives : g.Gives set) : f.Gives set := by
  obtain ⟨top, stack, found, result⟩ := gives
  have runs : f.run.bare = g.run.bare := congrArg Finished.run same
  have workspaces : f.run.workspace.bare = g.run.workspace.bare := congrArg Run.workspace runs
  have results : f.bare.result = g.bare.result := congrArg Finished.result same
  refine ⟨top, (congrArg Run.stack runs).trans stack, ?_, results.trans result⟩
  exact (congrArg (Workspace.find · top) workspaces).trans found

/-- The evaluation of a text that writes a term gives the set of the term. -/
theorem Run.gives_term {w : Workspace} {text : String} {t : Term} {x : Operand}
    (quiet : w.explains = false) (written : t.Written 1 (tokens text.toList))
    (value : t.operand? w.registry = some x) :
    ((Run.start w).evaluateInfix Workspace.applyAnew text).Gives x.set := by
  obtain ⟨s, top, evaluated, stack, operand⟩ := evaluateInfix_term quiet written value
  obtain ⟨found, result, stack'⟩ := finish_of_operand stack operand
  rw [evaluated]
  refine ⟨top, stack', ?_, result⟩
  rw [(run_finish s).1]
  exact found

namespace Workspace

/-- Without explanations the result of an evaluation is that of its run. -/
theorem evaluateBy_of_quiet (execute : Executor) {w : Workspace} (quiet : w.explains = false)
    (text : String) :
    (w.evaluateBy execute text).result =
      ((Run.start w).evaluateInfix execute text).result.map (⟨·, [], none⟩) := by
  cases ended : ((Run.start w).evaluateInfix execute text).result with
  | error e =>
    rcases evaluateBy_of_error ended with ⟨-, failed⟩ | ⟨explains, -⟩
    · exact failed
    · cases quiet.symm.trans explains
  | ok answer =>
    obtain ⟨steps, none, answered⟩ := evaluateBy_of_ok ended
    rw [none quiet] at answered
    exact answered

/-- Without explanations an evaluation with the memo has the result that it has without. -/
theorem evaluate_result {w : Workspace} (sound : w.Sound) (quiet : w.explains = false)
    (text : String) :
    (w.evaluate text).result =
      ((Run.start w).evaluateInfix applyAnew text).result.map (⟨·, [], none⟩) := by
  obtain ⟨same, -⟩ := Run.evaluateInfix_bare (r := Run.start w) rfl sound text
  have results := congrArg Finished.result same
  change ((Run.start w).evaluateInfix apply text).result =
    ((Run.start w).evaluateInfix applyAnew text).result at results
  rw [evaluate, evaluateBy_of_quiet apply quiet, results]

/-- An evaluation with the memo has the answer that it has without. -/
theorem evaluate_answer {w : Workspace} (sound : w.Sound) (quiet : w.explains = false)
    {text : String} {answer : Answer}
    (result : ((Run.start w).evaluateInfix applyAnew text).result = .ok answer) :
    (w.evaluate text).result = .ok ⟨answer, [], none⟩ := by
  rw [evaluate_result sound quiet, result]
  rfl

/-- What an evaluation comes to, with the memo: the set of the term is the only one on the stack and
the answer. -/
theorem evaluate_term {w : Workspace} {text : String} {t : Term} {x : Operand} (sound : w.Sound)
    (quiet : w.explains = false) (written : t.Written 1 (tokens text.toList))
    (value : t.operand? w.registry = some x) :
    ∃ top, ((Run.start w).evaluateInfix apply text).run.stack = [top] ∧
      ((Run.start w).evaluateInfix apply text).run.workspace.find top = .ok x.set ∧
      (w.evaluate text).result = .ok ⟨.ofSet x.set, [], none⟩ := by
  have gives := Run.gives_term quiet written value
  obtain ⟨top, stack, found, -⟩ :=
    gives.of_bare (Run.evaluateInfix_bare (r := Run.start w) rfl sound text).1
  obtain ⟨-, -, -, result⟩ := gives
  exact ⟨top, stack, found, evaluate_answer sound quiet result⟩

/-- An inclusion is answered with the verdict on the sets of its two sides. -/
theorem evaluate_inclusion {w : Workspace} {text : String} {l r : Term} {x y : Operand}
    (sound : w.Sound) (quiet : w.explains = false)
    (written : (Term.binary .subset (by decide) l r).Written 1 (tokens text.toList))
    (left : l.operand? w.registry = some x) (right : r.operand? w.registry = some y)
    {verdict : Verdict} (combined : combine .subset x y = .relation x.label y.label verdict) :
    (w.evaluate text).result = .ok ⟨.relation x.label y.label verdict, [], none⟩ :=
  evaluate_answer sound quiet
    (Run.evaluateInfix_inclusion quiet written left right combined)

end Workspace

end DiscreteMath.SetAlgebra
