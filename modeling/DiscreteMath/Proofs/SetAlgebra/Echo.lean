import DiscreteMath.Proofs.SetAlgebra.Rejection
import DiscreteMath.Proofs.SetAlgebra.Stack
import DiscreteMath.Proofs.SetAlgebra.Universe

/-!
# Evaluating an expression again

Without explanations an evaluation leaves the sets as they were, unless a complement registers a
universe: the next evaluation of the expression finds that from its start. The two evaluations still
go in step, so the second is answered if the first is. A complement that was taken against an
enumerated set for want of a universe comes out the same; only one that was taken against a symbolic
set need not. After that the universe is there, and nothing changes any more.

## Main definitions

* `Workspace.Borrows` — a complement is taken against a symbolic set for want of a universe.
* `Registry.Lends` — a registry has a universe that another one is going to get.
* `Run.Echoes` — a run goes in step with another one.
-/

namespace DiscreteMath.SetAlgebra

/-- In the run `s` the evaluation of the expression takes the complement of the operand against a
symbolic set, for want of a universe. -/
structure Workspace.Borrows (execute : Workspace.Executor) (w : Workspace) (expression : String)
    (s : Run) (operand : String) : Prop where
  visits : ∃ rest, w.Visits execute expression s (.apply .complement :: rest)
  absent : s.workspace.registry.contains universeName = false
  chosen : ∃ below next whole set, s.stack = operand :: below ∧
    { s with stack := below }.chooseUniverse operand = .ok (next, whole) ∧
    next.workspace.registry.get? whole = some (.symbolic set)

/-! ### Registries -/

/-- Apart from temporary sets the second registry is the first, or it has in addition the universe
that the first lacks. -/
def Registry.Lends (lent : Option (List Element)) (first second : Registry) : Prop :=
  second.withoutTemporaries = first.withoutTemporaries ∨
    ∃ elements ∈ lent, first.contains universeName = false ∧
      second.withoutTemporaries = first.withoutTemporaries.insert universeName (.finite elements)

namespace Registry

variable {lent : Option (List Element)} {first second : Registry} {name : String}

theorem get?_eq_of_withoutTemporaries
    (same : second.withoutTemporaries = first.withoutTemporaries)
    (plain : isTemporary name = false) : second.get? name = first.get? name := by
  simpa [get?_withoutTemporaries, plain] using congrArg (get? · name) same

namespace Lends

/-- A set that is registered is the same in both. -/
theorem get? (lends : Lends lent first second) (plain : isTemporary name = false)
    (present : first.contains name = true) : second.get? name = first.get? name := by
  rcases lends with same | ⟨elements, -, absent, added⟩
  · exact get?_eq_of_withoutTemporaries same plain
  · have differs : name ≠ universeName := by
      rintro rfl
      cases absent.symm.trans present
    have found := congrArg (Registry.get? · name) added
    simpa [get?_insert, get?_withoutTemporaries, plain, differs] using found

theorem temporary (lends : Lends lent first second) (n : Nat) (x y : StoredSet) :
    Lends lent (first.insert (temporaryName n) x) (second.insert (temporaryName n) y) := by
  simpa [Lends, withoutTemporaries_insert_temporary, contains_insert,
    universeName_ne_temporaryName] using lends

/-- Both registries have the same to serve as the universe, or the second has the lent one. -/
theorem serving (lends : Lends lent first second) (operand : String) :
    second.withoutTemporaries = first.withoutTemporaries ∧
        second.serving operand = first.serving operand ∨
      ∃ elements ∈ lent, first.contains universeName = false ∧
        second.get? universeName = some (.finite elements) ∧
        second.withoutTemporaries =
          first.withoutTemporaries.insert universeName (.finite elements) := by
  rcases lends with same | ⟨elements, listed, absent, added⟩
  · refine .inl ⟨same, ?_⟩
    rw [← serving_withoutTemporaries, same, serving_withoutTemporaries]
  · refine .inr ⟨elements, listed, absent, ?_, added⟩
    have found := congrArg (Registry.get? · universeName) added
    simpa [get?_insert, get?_withoutTemporaries] using found

end Lends

end Registry

/-! ### Operations -/

namespace Workspace

variable {v w : Workspace} {op : Operation} {a b : String}

theorem get?_store_universe (w : Workspace) (set : StoredSet) (k : Nat) :
    (w.store universeName set).registry.get? (temporaryName k) =
      w.registry.get? (temporaryName k) := by
  simp [store, withRegistry, Registry.get?_insert, (universeName_ne_temporaryName k).symm]

theorem withoutTemporaries_store_universe (w : Workspace) (set : StoredSet) :
    (w.store universeName set).registry.withoutTemporaries =
      w.registry.withoutTemporaries.insert universeName set :=
  Registry.withoutTemporaries_insert isTemporary_universeName _

theorem compute_congr (left : v.registry.get? a = w.registry.get? a)
    (right : v.registry.get? b = w.registry.get? b) : v.compute op a b = w.compute op a b := by
  simp only [compute, operand, find, label, left, right]

/-- What is computed of registered sets is a relation or a set, as the operation is. -/
theorem exists_compute (left : w.registry.contains a = true) (right : w.registry.contains b = true)
    (op : Operation) : ∃ value, w.compute op a b = .ok value ∧
      if op = .subset then ∃ x y verdict, value = .relation x y verdict
      else ∃ set, value = .set set := by
  obtain ⟨x, found⟩ := Option.isSome_iff_exists.mp left
  obtain ⟨y, found'⟩ := Option.isSome_iff_exists.mp right
  rw [compute, operand_eq found, operand_eq found']
  refine ⟨_, rfl, ?_⟩
  split
  next same =>
    subst same
    obtain ⟨verdict, relation⟩ := combine_subset_eq _ _
    exact ⟨_, _, verdict, relation⟩
  next proper => exact combine_eq_set proper _ _

/-- The memo stays sound. -/
theorem keeps_sound (w : Workspace) (expression : String) :
    Keeps apply w expression fun v _ => v.Sound ∧ v.explains = w.explains where
  execution h executed := by
    obtain ⟨-, same, sound⟩ := h.1.of_apply executed
    have explains := congrArg Workspace.explains same
    exact ⟨sound, explains.trans h.2⟩
  temporary h executed := by
    obtain ⟨-, same, -⟩ := h.1.of_apply executed
    have explains := congrArg Workspace.explains same
    exact ⟨sound_store _ _ _, explains.trans h.2⟩
  nothing h := ⟨sound_store _ _ _, h.2⟩
  whole h _ := ⟨sound_store _ _ _, h.2⟩
  missing h _ _ _ := ⟨sound_store _ _ _, h.2⟩

end Workspace

namespace Run

open Workspace (apply)

variable {r : Run} {op : Operation} {a b : String}

/-- A set that is computed is put on the stack under a temporary name. -/
theorem operate_of_set (sound : r.workspace.Sound) {set : StoredSet}
    (computed : r.workspace.compute op a b = .ok (.set set)) (remark : String) :
    ∃ s, r.operate apply op a b remark = .running s ∧
      s.stack = temporaryName r.temporaries :: r.stack ∧ s.temporaries = r.temporaries + 1 ∧
      s.workspace.registry = r.workspace.registry.insert (temporaryName r.temporaries) set := by
  have applied := sound.apply op a b
  rw [computed] at applied
  obtain ⟨next, applied, same, -⟩ := applied
  simp only [operate, applied]
  refine ⟨_, rfl, rfl, rfl, ?_⟩
  rw [← Workspace.registry_eq_of_bare same]
  rfl

/-- A relation that is computed is the answer. -/
theorem operate_of_relation (sound : r.workspace.Sound) {x y : String} {verdict : Verdict}
    (computed : r.workspace.compute op a b = .ok (.relation x y verdict)) (remark : String) :
    ∃ f, r.operate apply op a b remark = .finished f ∧ f.result = .ok (.relation x y verdict) ∧
      f.run.workspace.registry = r.workspace.registry := by
  have applied := sound.apply op a b
  rw [computed] at applied
  obtain ⟨next, applied, same, -⟩ := applied
  simp only [operate, applied]
  refine ⟨_, rfl, rfl, ?_⟩
  rw [← Workspace.registry_eq_of_bare same]
  rfl

end Run

/-! ### Two runs in step -/

/-- The second run has the stack of the first, and its sets but for a universe that is lent. If it
is faithful, it has also its temporary sets. -/
structure Run.Echoes (faithful : Prop) (lent : Option (List Element)) (r s : Run) : Prop where
  stack : s.stack = r.stack
  temporaries : s.temporaries = r.temporaries
  lends : r.workspace.registry.Lends lent s.workspace.registry
  values : faithful → ∀ k < r.temporaries, s.workspace.registry.get? (temporaryName k) =
    r.workspace.registry.get? (temporaryName k)

/-- The first run has failed, or both are answered, and alike if the second is faithful. -/
def Finished.Echoes (faithful : Prop) (lent : Option (List Element)) (f g : Finished) : Prop :=
  (∃ e, f.result = .error e) ∨ ∃ answer answer', f.result = .ok answer ∧ g.result = .ok answer' ∧
    (faithful → answer' = answer) ∧
    f.run.workspace.registry.Lends lent g.run.workspace.registry

/-- Both runs go on or both have come to an end, unless the first has failed. -/
def Progress.Echoes (faithful : Prop) (lent : Option (List Element)) : Progress → Progress → Prop
  | running r, running s => r.Echoes faithful lent s
  | finished f, finished g => f.Echoes faithful lent g
  | finished f, running _ => ∃ e, f.result = .error e
  | running _, finished _ => False

/-- The first run has no universe for the operand, or both runs choose one and go on in step; the
complement is the same if the second is faithful. -/
def Run.ChooseAlike (faithful : Prop) (lent : Option (List Element)) (operand : String)
    (r s : Run) : Prop :=
  (∃ e, r.chooseUniverse operand = .error e) ∨
    ∃ r' s' whole whole', r.chooseUniverse operand = .ok (r', whole) ∧
      s.chooseUniverse operand = .ok (s', whole') ∧ r'.Echoes faithful lent s' ∧
      (faithful → s'.workspace.compute .complement operand whole' =
        r'.workspace.compute .complement operand whole)

variable {faithful : Prop} {lent : Option (List Element)}

theorem Progress.echoes_of_failed {f : Finished} {e : SetError} (failed : f.result = .error e)
    (p : Progress) : (finished f).Echoes faithful lent p := by
  cases p with
  | running s => exact ⟨e, failed⟩
  | finished g => exact .inl ⟨e, failed⟩

namespace Run.Echoes

open Workspace (apply)

variable {r s : Run} {op : Operation} {a b b' name : String}

/-- A faithful run has the sets that are at hand. -/
theorem get? (echoes : r.Echoes faithful lent s) (h : faithful) (safe : r.Safe name)
    (present : r.workspace.registry.contains name = true) :
    s.workspace.registry.get? name = r.workspace.registry.get? name := by
  rcases safe with plain | ⟨k, stored, rfl⟩
  · exact echoes.lends.get? plain present
  · exact echoes.values h k stored

theorem operate (echoes : r.Echoes faithful lent s) (sound : r.workspace.Sound)
    (sound' : s.workspace.Sound) (left : r.workspace.registry.contains a = true)
    (right : r.workspace.registry.contains b = true)
    (left' : s.workspace.registry.contains a = true)
    (right' : s.workspace.registry.contains b' = true)
    (same : faithful → s.workspace.compute op a b' = r.workspace.compute op a b)
    (remark : String) :
    (r.operate apply op a b remark).Echoes faithful lent (s.operate apply op a b' remark) := by
  obtain ⟨value, computed, shape⟩ := Workspace.exists_compute left right op
  obtain ⟨value', computed', shape'⟩ := Workspace.exists_compute left' right' op
  have same : faithful → value' = value := fun h =>
    Except.ok.inj ((computed'.symm.trans (same h)).trans computed)
  by_cases relation : op = .subset
  · rw [if_pos relation] at shape shape'
    obtain ⟨x, y, verdict, rfl⟩ := shape
    obtain ⟨x', y', verdict', rfl⟩ := shape'
    obtain ⟨f, ended, result, registry⟩ := operate_of_relation sound computed remark
    obtain ⟨g, ended', result', registry'⟩ := operate_of_relation sound' computed' remark
    rw [ended, ended']
    refine .inr ⟨_, _, result, result', fun h => ?_, ?_⟩
    · cases same h
      rfl
    · rw [registry, registry']
      exact echoes.lends
  · rw [if_neg relation] at shape shape'
    obtain ⟨set, rfl⟩ := shape
    obtain ⟨set', rfl⟩ := shape'
    obtain ⟨next, stepped, stack, count, registry⟩ := operate_of_set sound computed remark
    obtain ⟨next', stepped', stack', count', registry'⟩ := operate_of_set sound' computed' remark
    rw [echoes.temporaries] at stack' count' registry'
    rw [stepped, stepped']
    refine ⟨?_, count'.trans count.symm, ?_, fun h k stored => ?_⟩
    · rw [stack, stack', echoes.stack]
    · rw [registry, registry']
      exact echoes.lends.temporary _ _ _
    · rw [registry, registry', Registry.get?_insert, Registry.get?_insert]
      split
      next => cases same h; rfl
      next older =>
        refine echoes.values h k (Nat.lt_of_le_of_ne (by omega) ?_)
        rintro rfl
        exact older rfl

/-- Two operands are taken from both stacks. -/
theorem applyBinary (echoes : r.Echoes faithful lent s) (sound : r.workspace.Sound)
    (sound' : s.workspace.Sound) {rest : List Instruction} (stocked : r.Stocked rest)
    (stocked' : s.Stocked rest) (guarded : r.Guarded) (op : Operation) :
    (r.applyBinary apply op).Echoes faithful lent (s.applyBinary apply op) := by
  unfold Run.applyBinary
  rw [echoes.stack]
  match stack : r.stack with
  | [] | [_] => exact Progress.echoes_of_failed rfl _
  | b :: a :: below =>
    have known (name : String) (member : name ∈ r.stack) :
        r.workspace.registry.contains name = true ∧ s.workspace.registry.contains name = true ∧
          (faithful → s.workspace.registry.get? name = r.workspace.registry.get? name) :=
      ⟨stocked name (.inl member), stocked' name (.inl (by rwa [echoes.stack])), fun h =>
        echoes.get? h (guarded name member) (stocked name (.inl member))⟩
    obtain ⟨right, right', sameRight⟩ := known b (by simp [stack])
    obtain ⟨left, left', sameLeft⟩ := known a (by simp [stack])
    refine operate (r := noteNumbered { r with stack := below } _ _)
      (s := noteNumbered { s with stack := below } _ _) ⟨rfl, echoes.temporaries, echoes.lends,
        echoes.values⟩ sound sound' left right left' right' (fun h => ?_) ""
    exact Workspace.compute_congr (sameLeft h) (sameRight h)

/-- A run that registers a universe goes in step with one that has this universe then. -/
theorem register {r' s' : Run} {set : StoredSet} (echoes : r.Echoes faithful lent s)
    (same : r'.workspace = r.workspace.store universeName set) (stack : r'.stack = r.stack)
    (count : r'.temporaries = r.temporaries) (stack' : s'.stack = s.stack)
    (count' : s'.temporaries = s.temporaries)
    (values : ∀ k, s'.workspace.registry.get? (temporaryName k) =
      s.workspace.registry.get? (temporaryName k))
    (added : s'.workspace.registry.withoutTemporaries =
      r.workspace.registry.withoutTemporaries.insert universeName set) :
    r'.Echoes faithful lent s' := by
  refine ⟨?_, ?_, .inl ?_, fun h k stored => ?_⟩
  · rw [stack', echoes.stack, stack]
  · rw [count', echoes.temporaries, count]
  · rw [added, same, Workspace.withoutTemporaries_store_universe]
  · rw [values, same, Workspace.get?_store_universe]
    exact echoes.values h k (count ▸ stored)

theorem finish (echoes : r.Echoes faithful lent s) (stocked : r.Stocked []) (guarded : r.Guarded)
    (stocked' : s.Stocked []) : r.finish.Echoes faithful lent s.finish := by
  unfold Run.finish
  rw [echoes.stack]
  match stack : r.stack with
  | [] | _ :: _ :: _ => exact .inl ⟨_, rfl⟩
  | [last] =>
    have member : last ∈ r.stack := by simp [stack]
    have present := stocked last (.inl member)
    have same (h : faithful) := echoes.get? h (guarded last member) present
    obtain ⟨set, found⟩ := Option.isSome_iff_exists.mp present
    obtain ⟨set', found'⟩ := Option.isSome_iff_exists.mp (stocked' last (.inl (by
      rwa [echoes.stack])))
    simp only [Workspace.find, found, found']
    refine .inr ⟨_, _, rfl, rfl, fun h => ?_, echoes.lends⟩
    rw [Option.some.inj ((found'.symm.trans (same h)).trans found)]

end Run.Echoes

/-! ### The universe that is lent -/

namespace Workspace

variable {w : Workspace} {text : String}

/-- A universe that is there stays as it is. -/
theorem keeps_whole (quiet : w.explains = false) (text : String) (set : StoredSet) :
    Keeps apply w text fun v _ => v.registry.get? universeName = some set where
  execution found executed := by rwa [(Extends.apply executed).registry]
  temporary found executed := by
    rw [← (Extends.apply executed).registry] at found
    simpa [store, withRegistry, Registry.get?_insert, universeName_ne_temporaryName] using found
  nothing found := by
    simpa [store, withRegistry, Registry.get?_insert, universeName_ne_temporaryName] using found
  whole found gathers := by
    have absent := gathers.absent
    simp [Registry.contains, found] at absent
  missing _ explains := by cases quiet.symm.trans explains

namespace Gathers

variable {s t : Run} {a b : String}

/-- The universe that is gathered is the one that there is in the end. -/
theorem whole (quiet : w.explains = false) (gathers : w.Gathers apply text s a) :
    ((Run.start w).evaluateInfix apply text).run.workspace.registry.get? universeName =
      some (.finite (s.workspace.registry.gathered a)) :=
  gathers.ends (keeps_whole quiet text _) (by simp [store, withRegistry, Registry.get?_insert])

theorem unique (quiet : w.explains = false) (first : w.Gathers apply text s a)
    (second : w.Gathers apply text t b) :
    s.workspace.registry.gathered a = t.workspace.registry.gathered b := by
  simpa using (first.whole quiet).symm.trans (second.whole quiet)

end Gathers

/-- Where there is no universe yet, the sets are those of the start. -/
theorem Visits.withoutTemporaries (quiet : w.explains = false) {s : Run} {rest : List Instruction}
    (visits : w.Visits apply text s rest)
    (absent : s.workspace.registry.contains universeName = false) :
    s.workspace.registry.withoutTemporaries = w.registry.withoutTemporaries :=
  ((keeps_kept quiet text).visited (.inl rfl) visits).same absent

/-- An evaluation of registered names comes to all its instructions. -/
theorem Visits.start (quiet : w.explains = false) (registered : w.Registered text)
    {instructions : List Instruction}
    (ordered : toPostfix (tokens text.toList) = .ok instructions) :
    w.Visits apply text
      (((Run.start w).noteTokens text).noteConversion.notePostfix instructions).noteStart
      instructions := by
  refine ⟨_, instructions, Run.defineMissing_of_registered registered, ?_, .refl⟩
  rw [Run.instructions_of_quiet, ordered]
  rwa [((Run.start w).noteTokens_frame text).1]

theorem Visits.sound (sound : w.Sound) {s : Run} {rest : List Instruction}
    (visits : w.Visits apply text s rest) : s.workspace.Sound :=
  ((keeps_sound w text).visited ⟨sound, rfl⟩ visits).1

/-- What a complement takes as its operands is registered. -/
theorem Visits.chosen (sound : w.Sound) {s next : Run} {rest : List Instruction}
    {operand whole : String} {below : List String}
    (visits : w.Visits apply text s (.apply .complement :: rest))
    (stack : s.stack = operand :: below)
    (chosen : { s with stack := below }.chooseUniverse operand = .ok (next, whole)) :
    next.workspace.registry.contains operand = true ∧
      next.workspace.registry.contains whole = true ∧ next.workspace.Sound := by
  obtain ⟨present, popped⟩ := visits.stocked.pop stack
  obtain ⟨e, failed, -⟩ | ⟨next', whole', chosen', -, there, kept⟩ :=
    Run.chooseUniverse_cases popped operand
  · cases chosen.symm.trans failed
  · cases chosen.symm.trans chosen'
    exact ⟨kept operand present, there,
      ((keeps_sound w text).chooseUniverse ((keeps_sound w text).visited ⟨sound, rfl⟩ visits) visits
        stack chosen).1⟩

/-- What is lent is the universe that the evaluation gathers. For a faithful run no complement is
taken against a symbolic set before that. -/
structure Lender (faithful : Prop) (lent : Option (List Element)) (w : Workspace) (text : String) :
    Prop where
  sound : w.Sound
  quiet : w.explains = false
  tidy : w.registry.Tidy
  gathers : ∀ elements ∈ lent, ∃ s operand, w.Gathers apply text s operand ∧
    elements = w.registry.gathered operand
  loyal : faithful → lent ≠ none → ∀ s operand, ¬ w.Borrows apply text s operand

namespace Lender

variable {r s : Run} {rest : List Instruction} {a whole : String} {below : List String}
variable {elements : List Element}

/-- The complement against an enumerated set is the same as against the universe that is lent. -/
theorem compute_complement (lender : Lender faithful lent w text)
    (visits : w.Visits apply text r (.apply .complement :: rest)) (stack : r.stack = a :: below)
    (absent : r.workspace.registry.contains universeName = false)
    (serving : r.workspace.registry.serving a = some (whole, none)) (listed : elements ∈ lent)
    (h : faithful) {v : Workspace}
    (operand : v.registry.get? a = r.workspace.registry.get? a)
    (there : v.registry.get? universeName = some (.finite elements)) :
    v.compute .complement a universeName = r.workspace.compute .complement a whole := by
  obtain ⟨member, serves⟩ := Registry.serves_of_serving absent serving
  have plain := Registry.isTemporary_of_serving serving
  have chosen := Run.chooseUniverse_spec { r with stack := below } a
  simp only [serving] at chosen
  obtain ⟨x, left⟩ := Option.isSome_iff_exists.mp (visits.stocked a (.inl (by simp [stack])))
  obtain ⟨set, found⟩ := Option.isSome_iff_exists.mp (Registry.contains_of_serving serving)
  cases set with
  | symbolic set =>
    refine absurd ⟨⟨rest, visits⟩, absent, below, _, whole, set, stack, chosen, found⟩
      (lender.loyal h ?_ r a)
    rintro rfl
    cases listed
  | finite held =>
    obtain ⟨t, b, gathers, rfl⟩ := lender.gathers elements listed
    obtain ⟨left', visits'⟩ := gathers.visits
    have same := visits.withoutTemporaries lender.quiet absent
    have same' := visits'.withoutTemporaries lender.quiet gathers.absent
    have several : 1 < (t.workspace.registry.others b).length := gathers.several
    have nonempty := gathers.nonempty
    rw [← Registry.others_withoutTemporaries, same] at member serves
    rw [← Registry.gathered_withoutTemporaries, same] at serves
    rw [← Registry.others_withoutTemporaries, same'] at several
    rw [← Registry.gathered_withoutTemporaries, same'] at nonempty
    have held' : w.registry.withoutTemporaries.get? whole = some (.finite held) := by
      rw [← same, Registry.get?_withoutTemporaries, plain]
      exact found
    have agree := Registry.complement_gathered lender.tidy.withoutTemporaries (x := ⟨a, x⟩)
      (fun plain => by rw [← same, Registry.get?_withoutTemporaries, plain]; exact left)
      member held' serves several nonempty
    rw [Registry.gathered_withoutTemporaries] at agree
    simp only [compute, operand_eq (operand.trans left), operand_eq left, operand_eq there,
      operand_eq found, bind, Except.bind, combine_complement_finite, agree]

/-- The universe that is gathered is the one that is lent. -/
theorem gathered_eq (lender : Lender faithful lent w text)
    (gathering : w.Gathers apply text r a) (listed : elements ∈ lent) :
    r.workspace.registry.gathered a = elements := by
  obtain ⟨t, b, gathers, rfl⟩ := lender.gathers elements listed
  obtain ⟨rest, visits⟩ := gathers.visits
  rw [gathering.unique lender.quiet gathers, ← Registry.gathered_withoutTemporaries,
    visits.withoutTemporaries lender.quiet gathers.absent, Registry.gathered_withoutTemporaries]

/-- A set that is at hand serves as the universe. -/
theorem choose_serving (lender : Lender faithful lent w text)
    (visits : w.Visits apply text r (.apply .complement :: rest)) (stack : r.stack = a :: below)
    (echoes : { r with stack := below }.Echoes faithful lent { s with stack := below })
    (serving : r.workspace.registry.serving a = some (whole, none)) :
    Run.ChooseAlike faithful lent a { r with stack := below } { s with stack := below } := by
  have operand (h : faithful) := echoes.get? h (visits.guarded a (by simp [stack]))
    (visits.stocked a (.inl (by simp [stack])))
  have mine := Run.chooseUniverse_spec { r with stack := below } a
  have its := Run.chooseUniverse_spec { s with stack := below } a
  simp only [serving] at mine
  rcases echoes.lends.serving a with ⟨alike, serving'⟩ | ⟨elements, listed, absent, there, -⟩
  · simp only [serving'.trans serving] at its
    exact .inr ⟨_, _, _, _, mine, its, echoes, fun h => compute_congr (operand h)
      (Registry.get?_eq_of_withoutTemporaries alike (Registry.isTemporary_of_serving serving))⟩
  · have present : s.workspace.registry.contains universeName = true := by
      simp [Registry.contains, there]
    simp only [Registry.serving_of_contains present] at its
    exact .inr ⟨_, _, _, _, mine, its, echoes, fun h =>
      lender.compute_complement visits stack absent serving listed h (operand h) there⟩

/-- A universe is gathered and registered. The second run does the same, or it has had it lent. -/
theorem choose_gathering (lender : Lender faithful lent w text)
    (visits : w.Visits apply text r (.apply .complement :: rest)) (stack : r.stack = a :: below)
    (echoes : { r with stack := below }.Echoes faithful lent { s with stack := below })
    (serving : r.workspace.registry.serving a = some (whole, some elements)) :
    Run.ChooseAlike faithful lent a { r with stack := below } { s with stack := below } := by
  obtain ⟨rfl, absent, rfl, several, nonempty⟩ := Registry.gathers_of_serving serving
  have mine := Run.chooseUniverse_spec { r with stack := below } a
  have its := Run.chooseUniverse_spec { s with stack := below } a
  simp only [serving] at mine
  obtain ⟨r', chosen, same, stack', count⟩ := mine
  have known (name : String) : r'.workspace.registry.contains name =
      (name == universeName || r.workspace.registry.contains name) := by
    rw [same]
    exact Registry.contains_insert ..
  have complement {s' : Run} (echoes' : r'.Echoes faithful lent s') (h : faithful) :
      s'.workspace.compute .complement a universeName =
        r'.workspace.compute .complement a universeName := by
    refine compute_congr (echoes'.get? h ?_ ?_) (echoes'.get? h (.inl isTemporary_universeName) ?_)
    · exact (visits.guarded a (by simp [stack])).mono count.ge
    · rw [known, visits.stocked a (.inl (by simp [stack])), Bool.or_true]
    · rw [known, BEq.rfl, Bool.true_or]
  rcases echoes.lends.serving a with ⟨alike, serving'⟩ | ⟨elements, listed, -, there, added⟩
  · simp only [serving'.trans serving] at its
    obtain ⟨s', chosen', same', stack'', count'⟩ := its
    have echoes' : r'.Echoes faithful lent s' := by
      refine echoes.register same stack' count stack'' count' (fun k => ?_) ?_
      · rw [same']
        exact get?_store_universe ..
      · rw [same', ← alike]
        exact withoutTemporaries_store_universe ..
    exact .inr ⟨r', s', _, _, chosen, chosen', echoes', complement echoes'⟩
  · have present : s.workspace.registry.contains universeName = true := by
      simp [Registry.contains, there]
    simp only [Registry.serving_of_contains present] at its
    have equal := lender.gathered_eq ⟨⟨rest, visits⟩, ⟨below, stack⟩, absent, several, nonempty⟩
      listed
    have echoes' : r'.Echoes faithful lent { s with stack := below } :=
      echoes.register same stack' count rfl rfl (fun _ => rfl) (by rwa [equal])
    exact .inr ⟨r', _, _, _, chosen, its, echoes', complement echoes'⟩

/-- Two runs in step choose a universe alike. -/
theorem choose (lender : Lender faithful lent w text)
    (visits : w.Visits apply text r (.apply .complement :: rest)) (stack : r.stack = a :: below)
    (echoes : { r with stack := below }.Echoes faithful lent { s with stack := below }) :
    Run.ChooseAlike faithful lent a { r with stack := below } { s with stack := below } := by
  have mine := Run.chooseUniverse_spec { r with stack := below } a
  cases serving : r.workspace.registry.serving a with
  | none =>
    simp only [serving] at mine
    exact .inl ⟨_, mine⟩
  | some served =>
    obtain ⟨whole, none | elements⟩ := served
    · exact lender.choose_serving visits stack echoes serving
    · exact lender.choose_gathering visits stack echoes serving

variable {v : Workspace} (lender : Lender faithful lent w text) (sound : v.Sound)
include lender sound

theorem applyComplement (visits : w.Visits apply text r (.apply .complement :: rest))
    (visits' : v.Visits apply text s (.apply .complement :: rest))
    (echoes : r.Echoes faithful lent s) :
    (r.applyComplement apply).Echoes faithful lent (s.applyComplement apply) := by
  unfold Run.applyComplement
  rw [echoes.stack]
  match stack : r.stack with
  | [] => exact Progress.echoes_of_failed rfl _
  | a :: below =>
    dsimp only
    have stack' := echoes.stack.trans stack
    have popped : { r with stack := below }.Echoes faithful lent { s with stack := below } :=
      ⟨rfl, echoes.temporaries, echoes.lends, echoes.values⟩
    rcases lender.choose visits stack popped with
      ⟨e, failed⟩ | ⟨r', s', whole, whole', chosen, chosen', echoes', same⟩
    · simp only [failed]
      exact Progress.echoes_of_failed rfl _
    · obtain ⟨left, right, sound'⟩ := visits.chosen lender.sound stack chosen
      obtain ⟨left', right', sound''⟩ := visits'.chosen sound stack' chosen'
      simp only [chosen, chosen']
      exact Run.Echoes.operate (r := r'.noteNumbered _ _) (s := s'.noteNumbered _ _)
        ⟨echoes'.stack, echoes'.temporaries, echoes'.lends, echoes'.values⟩ sound' sound''
        left right left' right' same _

theorem follow {i : Instruction} (visits : w.Visits apply text r (i :: rest))
    (visits' : v.Visits apply text s (i :: rest)) (echoes : r.Echoes faithful lent s) :
    (r.follow apply i).Echoes faithful lent (s.follow apply i) := by
  cases i with
  | push name =>
    exact ⟨congrArg (name :: ·) echoes.stack, echoes.temporaries, echoes.lends, echoes.values⟩
  | apply op =>
    unfold Run.follow
    dsimp only
    split
    next complement =>
      subst complement
      exact lender.applyComplement sound visits visits' echoes
    next =>
      exact echoes.applyBinary (visits.sound lender.sound) (visits'.sound sound) visits.stocked
        visits'.stocked visits.guarded op

theorem followAll {instructions : List Instruction} (visits : w.Visits apply text r instructions)
    (visits' : v.Visits apply text s instructions) (echoes : r.Echoes faithful lent s) :
    (r.followAll apply instructions).Echoes faithful lent (s.followAll apply instructions) := by
  induction instructions generalizing r s with
  | nil => exact echoes
  | cons i rest ih =>
    have next := lender.follow sound visits visits' echoes
    unfold Run.followAll
    cases stepped : r.follow apply i with
    | running r' =>
      cases stepped' : s.follow apply i with
      | running s' =>
        rw [stepped, stepped'] at next
        exact ih (visits.passes (.step stepped .refl)) (visits'.passes (.step stepped' .refl)) next
      | finished g =>
        rw [stepped, stepped'] at next
        exact next.elim
    | finished f =>
      rw [stepped] at next
      cases stepped' : s.follow apply i with
      | running s' =>
        rw [stepped'] at next
        obtain ⟨e, failed⟩ := next
        exact Progress.echoes_of_failed failed _
      | finished g =>
        rw [stepped'] at next
        exact next

/-- Two runs that go in step end alike. -/
theorem evaluate (quiet : v.explains = false) {instructions : List Instruction}
    (visits : w.Visits apply text r.noteStart instructions)
    (visits' : v.Visits apply text s.noteStart instructions) (echoes : r.Echoes faithful lent s) :
    (r.evaluate apply instructions).Echoes faithful lent (s.evaluate apply instructions) := by
  have followed := lender.followAll sound visits visits'
    ⟨echoes.stack, echoes.temporaries, echoes.lends, echoes.values⟩
  unfold Run.evaluate
  cases ended : r.noteStart.followAll apply instructions with
  | finished f =>
    cases ended' : s.noteStart.followAll apply instructions with
    | finished g =>
      rw [ended, ended'] at followed
      exact followed
    | running last' =>
      rw [ended, ended'] at followed
      exact .inl followed
  | running last =>
    cases ended' : s.noteStart.followAll apply instructions with
    | finished g =>
      rw [ended, ended'] at followed
      exact followed.elim
    | running last' =>
      rw [ended, ended'] at followed
      have there := visits.passes ⟨instructions, instructions.append_nil.symm, ended⟩
      have there' := visits'.passes ⟨instructions, instructions.append_nil.symm, ended'⟩
      have still := ((keeps_sound w text).visited ⟨lender.sound, rfl⟩ there).2
      have still' := ((keeps_sound v text).visited ⟨sound, rfl⟩ there').2
      simp only [Run.conclude_of_quiet (still.trans lender.quiet),
        Run.conclude_of_quiet (still'.trans quiet)]
      exact Run.Echoes.finish followed there.stocked there.guarded there'.stocked

/-- If the first evaluation is answered, then the second is, and alike if it is faithful. -/
theorem evaluateInfix (quiet : v.explains = false) (lends : w.registry.Lends lent v.registry)
    (registered : w.Registered text) :
    ((Run.start w).evaluateInfix apply text).Echoes faithful lent
      ((Run.start v).evaluateInfix apply text) := by
  have same := ((Run.start w).noteTokens_frame text)
  have same' := ((Run.start v).noteTokens_frame text)
  have registered' : v.Registered text := fun name member => by
    have found := lends.get? (isTemporary_of_mem_tokens member) (registered name member)
    rw [Registry.contains, found]
    exact registered name member
  have echoes : ((Run.start w).noteTokens text).Echoes faithful lent
      ((Run.start v).noteTokens text) := by
    refine ⟨same'.2.2.trans same.2.2.symm, same'.2.1.trans same.2.1.symm, ?_, fun _ k stored => ?_⟩
    · rw [same.1, same'.1]
      exact lends
    · rw [same.2.1] at stored
      exact absurd stored k.not_lt_zero
  by_cases nothing : tokens text.toList = []
  · unfold Run.evaluateInfix
    simp only [nothing, List.isEmpty_nil, if_true]
    exact .inr ⟨_, _, rfl, rfl, fun _ => rfl, echoes.lends⟩
  rw [Run.evaluateInfix_eq apply lender.quiet nothing registered,
    Run.evaluateInfix_eq apply quiet nothing registered']
  cases ordered : toPostfix (tokens text.toList) with
  | error e => exact .inl ⟨e, rfl⟩
  | ok instructions =>
    exact lender.evaluate sound quiet (.start lender.quiet registered ordered)
      (.start quiet registered' ordered)
      ⟨echoes.stack, echoes.temporaries, echoes.lends, echoes.values⟩

end Lender

/-! ### Evaluating again -/

/-- What an evaluation leaves behind. -/
theorem evaluate_leaves (sound : w.Sound) (quiet : w.explains = false) (text : String) :
    (w.evaluate text).workspace.Sound ∧ (w.evaluate text).workspace.explains = false ∧
      (w.evaluate text).workspace.registry =
        ((Run.start w).evaluateInfix apply text).run.workspace.registry.withoutTemporaries := by
  obtain ⟨sound', same⟩ := (keeps_sound w text).evaluateInfix ⟨sound, rfl⟩
  rw [evaluate, evaluateBy_workspace]
  refine ⟨sound'.dropTemporaries, ?_, registry_dropTemporaries _⟩
  unfold dropTemporaries
  split
  · exact same.trans quiet
  · exact same.trans quiet

theorem evaluate_result_of_quiet (quiet : w.explains = false) {first : Evaluation} :
    (w.evaluate text).result = .ok first ↔
      ∃ answer, ((Run.start w).evaluateInfix apply text).result = .ok answer ∧
        first = ⟨answer, [], none⟩ := by
  rw [evaluate, evaluateBy_of_quiet apply quiet]
  cases ((Run.start w).evaluateInfix apply text).result with
  | error e => simp [Except.map]
  | ok answer => simp [Except.map, eq_comm]

/-- Where there is a universe, an evaluation leaves the sets as they are. -/
theorem evaluate_keeps (quiet : w.explains = false)
    (present : w.registry.contains universeName = true) :
    ((Run.start w).evaluateInfix apply text).run.workspace.registry.withoutTemporaries =
      w.registry.withoutTemporaries := by
  rcases (keeps_kept quiet text).evaluateInfix (.inl rfl) with same | ⟨s, operand, gathers, -⟩
  · exact same
  · cases gathers.absent_start.symm.trans present

/-- An evaluation that leaves the sets as they are is answered alike ever after. -/
theorem evaluate_steady (sound : w.Sound) (quiet : w.explains = false) (tidy : w.registry.Tidy)
    (steady : (w.evaluate text).workspace.registry = w.registry.withoutTemporaries)
    {first : Evaluation} (answered : (w.evaluate text).result = .ok first) {v : Workspace}
    (sound' : v.Sound) (quiet' : v.explains = false)
    (same : v.registry.withoutTemporaries = w.registry.withoutTemporaries) (n : Nat) :
    ((v.after apply (List.replicate n (.evaluate text))).evaluate text).result = .ok first := by
  obtain ⟨answer, ended, rfl⟩ := (evaluate_result_of_quiet quiet).mp answered
  have lender : Lender True none w text :=
    ⟨sound, quiet, tidy, nofun, fun _ some => absurd rfl some⟩
  rw [(evaluate_leaves sound quiet text).2.2] at steady
  induction n generalizing v with
  | zero =>
    obtain ⟨e, failed⟩ | ⟨answer', answer'', ended', result, equal, -⟩ :=
      lender.evaluateInfix sound' quiet' (.inl same) (Run.registered_of_ok quiet ended)
    · cases failed.symm.trans ended
    · cases ended'.symm.trans ended
      exact (evaluate_result_of_quiet quiet').mpr ⟨answer'', result, by rw [equal trivial]⟩
  | succ n ih =>
    obtain ⟨sound'', quiet'', left⟩ := evaluate_leaves sound' quiet' text
    refine ih sound'' quiet'' ?_
    change (v.evaluate text).workspace.registry.withoutTemporaries = _
    obtain ⟨e, failed⟩ | ⟨answer', answer'', -, -, -, lends⟩ :=
      lender.evaluateInfix sound' quiet' (.inl same) (Run.registered_of_ok quiet ended)
    · cases failed.symm.trans ended
    · obtain alike | ⟨elements, listed, -⟩ := lends
      · rw [left, Registry.withoutTemporaries_eq_self Registry.hasTemporaries_withoutTemporaries,
          alike, steady]
      · cases listed

/-- Without explanations, if an expression is answered then it is answered again, and from the
second time on always alike. The second answer is the first, unless a complement was taken against a
symbolic set for want of a universe and another one then registered a universe. -/
theorem evaluate_again {start : Registry} (h : start = .standard ∨ start = .empty) {w : Workspace}
    (reached : (ofRegistry start).Reaches w) (quiet : w.explains = false) {text : String}
    {first : Evaluation} (answered : (w.evaluate text).result = .ok first) :
    ∃ again, (∀ n, ((w.after apply (List.replicate (n + 1) (.evaluate text))).evaluate
        text).result = .ok again) ∧
      (again = first ∨ (∃ s operand, w.Borrows apply text s operand) ∧
        ∃ s operand, w.Gathers apply text s operand) := by
  have sound := sound_of_reaches reached (sound_of_memo_nil rfl)
  have tidy := tidy_of_reaches h reached
  obtain ⟨sound', quiet', left⟩ := evaluate_leaves sound quiet text
  rcases (keeps_kept quiet text).evaluateInfix (.inl rfl) with same | ⟨s, operand, gathers, added⟩
  · exact ⟨first, fun n => evaluate_steady sound quiet tidy (left.trans same) answered sound quiet
      rfl (n + 1), .inl rfl⟩
  obtain ⟨answer, ended, rfl⟩ := (evaluate_result_of_quiet quiet).mp answered
  have clean : (w.evaluate text).workspace.registry.withoutTemporaries =
      (w.evaluate text).workspace.registry := by
    rw [left, Registry.withoutTemporaries_eq_self Registry.hasTemporaries_withoutTemporaries]
  rw [added] at left
  have lender : Lender (∀ s operand, ¬ w.Borrows apply text s operand)
      (some (w.registry.gathered operand)) w text := by
    refine ⟨sound, quiet, tidy, fun elements listed => ?_, fun none _ => none⟩
    cases listed
    exact ⟨s, operand, gathers, rfl⟩
  have lends : w.registry.Lends (some (w.registry.gathered operand))
      (w.evaluate text).workspace.registry :=
    .inr ⟨_, rfl, gathers.absent_start, clean.trans left⟩
  obtain ⟨e, failed⟩ | ⟨_, again, ended', result, equal, -⟩ :=
    lender.evaluateInfix sound' quiet' lends (Run.registered_of_ok quiet ended)
  · cases failed.symm.trans ended
  cases ended'.symm.trans ended
  have answered' := (evaluate_result_of_quiet quiet').mpr ⟨again, result, rfl⟩
  refine ⟨⟨again, [], none⟩, fun n => ?_, ?_⟩
  · have tidy' : (w.evaluate text).workspace.registry.Tidy := by
      rw [left]
      exact tidy.withoutTemporaries.insert _ (unrepeated_distinct _)
    refine evaluate_steady sound' quiet' tidy' ?_ answered' sound' quiet' rfl n
    exact (evaluate_leaves sound' quiet' text).2.2.trans (evaluate_keeps quiet' (by
      rw [left, Registry.contains_insert, BEq.rfl, Bool.true_or]))
  · by_cases borrows : ∃ s operand, w.Borrows apply text s operand
    · exact .inr ⟨borrows, s, operand, gathers⟩
    · left
      rw [equal fun s operand borrowed => borrows ⟨s, operand, borrowed⟩]

/-- The complement of `A` registers a universe, and is the same from then on. -/
theorem evaluate_again_complement :
    let w := (ofRegistry .empty).after apply [.addElements "A" [.text "a"],
      .addElements "B" [.text "b"], .addElements "D" [.text "d"]]
    w.explains = false ∧ ∃ first again, (w.evaluate "Aᶜ").result = .ok first ∧
      first.answer.representation = "\x7bb, d\x7d" ∧
      again.answer.representation = "\x7bb, d\x7d" ∧
      ∀ n, ((w.after apply (List.replicate (n + 1) (.evaluate "Aᶜ"))).evaluate "Aᶜ").result =
        .ok again := by
  intro w
  obtain ⟨first, answered, shown⟩ := map_eq_ok (f := fun e : Evaluation => e.answer.representation)
    (show (w.evaluate "Aᶜ").result.map _ = .ok "\x7bb, d\x7d" by decide +kernel)
  obtain ⟨again, always, -⟩ := evaluate_again (.inr rfl) ⟨_, rfl⟩ rfl answered
  obtain ⟨second, answered', shown'⟩ :=
    map_eq_ok (f := fun e : Evaluation => e.answer.representation)
      (show ((w.after apply [.evaluate "Aᶜ"]).evaluate "Aᶜ").result.map _ =
        .ok "\x7bb, d\x7d" by decide +kernel)
  have same : again = second := Except.ok.inj ((always 0).symm.trans answered')
  exact ⟨rfl, first, again, answered, shown, same ▸ shown', always⟩

/-- Against a symbolic set the complement of `A` is symbolic; against the universe that the
complement of the complement registers after that, it is enumerated. -/
theorem evaluate_again_differs :
    let w := (ofRegistry .empty).after apply [.addElements "A" [.text "a"],
      .addSymbolic "S" "S = texts" (fun x => some (x matches .text _)) []]
    w.explains = false ∧ ∃ first again, (w.evaluate "Aᶜ ∪ Aᶜᶜ").result = .ok first ∧
      ((w.evaluate "Aᶜ ∪ Aᶜᶜ").workspace.evaluate "Aᶜ ∪ Aᶜᶜ").result = .ok again ∧
      first.answer.kind = "infinite" ∧ again.answer.kind = "finite" ∧ again ≠ first := by
  intro w
  obtain ⟨first, answered, infinite⟩ := map_eq_ok (f := fun e : Evaluation => e.answer.kind)
    (show (w.evaluate "Aᶜ ∪ Aᶜᶜ").result.map _ = .ok "infinite" by decide +kernel)
  obtain ⟨again, answered', finite⟩ := map_eq_ok (f := fun e : Evaluation => e.answer.kind)
    (show ((w.evaluate "Aᶜ ∪ Aᶜᶜ").workspace.evaluate "Aᶜ ∪ Aᶜᶜ").result.map _ = .ok "finite" by
      decide +kernel)
  refine ⟨rfl, first, again, answered, answered', infinite, finite, ?_⟩
  rintro rfl
  exact absurd (infinite.symm.trans finite) (by decide)

end Workspace

end DiscreteMath.SetAlgebra
