import DiscreteMath.Proofs.SetAlgebra.Instructions
import DiscreteMath.Proofs.SetAlgebra.Memo
import Mathlib

/-!
# Explanations do not change answers

The instructions of an expression are followed alike whether explanations are asked for or not. The
two modes part only where the plain one fails: at names that are missing, at an expression without
names, and at a stack that does not hold exactly one operand in the end. So an answer without
explanations is the answer with them, and an error that is explained is the error of the plain mode.

## Main definitions

* `Run.plain` — the run, with explanations no longer asked for.
* `Finished.Matches` — two outcomes that differ in the mode alone, or an error that the explaining
  mode recovers from.
* `Registered` — every name of an expression stands for a set.
-/

namespace DiscreteMath.SetAlgebra

def Run.plain (r : Run) : Run := { r with workspace := r.workspace.setExplains false }

def Finished.plain (f : Finished) : Finished := { f with run := f.run.plain }

/-- The plain outcome is the explained one without explanations, or it is an error where the
explained one is an answer. -/
def Finished.Matches (plain explained : Finished) : Prop :=
  plain = explained.plain ∨
    (∃ e, plain.result = .error e) ∧ ∃ answer, explained.result = .ok answer

def Progress.plain : Progress → Progress
  | running r => running r.plain
  | finished outcome => finished outcome.plain

def Workspace.Registered (w : Workspace) (expression : String) : Prop :=
  ∀ name, .name name ∈ tokens expression.toList → w.registry.contains name = true

namespace Run

open Workspace (applyAnew)

variable {r s : Run}

/-! ### Following instructions -/

theorem plain_operate (r : Run) (op : Operation) (a b remark : String) :
    r.plain.operate applyAnew op a b remark = (r.operate applyAnew op a b remark).plain := by
  have anew : r.plain.workspace.compute op a b = r.workspace.compute op a b := rfl
  unfold operate applyAnew
  rw [anew]
  cases r.workspace.compute op a b with
  | error e => rfl
  | ok value => cases value <;> rfl

theorem plain_chooseUniverse (r : Run) (operand : String) :
    r.plain.chooseUniverse operand =
      (r.chooseUniverse operand).map fun (next, whole) => (next.plain, whole) := by
  have present : r.plain.workspace.registry.contains universeName =
    r.workspace.registry.contains universeName := rfl
  have names : r.plain.workspace.registry.others operand = r.workspace.registry.others operand := rfl
  unfold chooseUniverse
  rw [present, names]
  cases r.workspace.registry.contains universeName with
  | true => rfl
  | false =>
    match r.workspace.registry.others operand with
    | [] | [_] => rfl
    | _ :: second :: more =>
      dsimp only [plain, Workspace.setExplains]
      cases (r.workspace.registry.gathered operand).isEmpty <;> rfl

theorem plain_applyComplement (r : Run) :
    r.plain.applyComplement applyAnew = (r.applyComplement applyAnew).plain := by
  obtain ⟨w, stack, temporaries, stepNumber, journal, warnings⟩ := r
  cases stack with
  | nil => rfl
  | cons a rest =>
    have chosen := plain_chooseUniverse ⟨w, rest, temporaries, stepNumber, journal, warnings⟩ a
    unfold applyComplement
    dsimp only [plain] at chosen ⊢
    rw [chosen]
    cases chooseUniverse ⟨w, rest, temporaries, stepNumber, journal, warnings⟩ a with
    | error e => rfl
    | ok found =>
      obtain ⟨next, whole⟩ := found
      exact plain_operate (next.noteNumbered _ _) _ _ _ _

theorem plain_applyBinary (r : Run) (op : Operation) :
    r.plain.applyBinary applyAnew op = (r.applyBinary applyAnew op).plain := by
  obtain ⟨w, stack, temporaries, stepNumber, journal, warnings⟩ := r
  match stack with
  | [] | [_] => rfl
  | b :: a :: rest => exact plain_operate (noteNumbered ⟨w, rest, _, _, _, _⟩ _ _) _ _ _ _

theorem plain_follow (r : Run) (i : Instruction) :
    r.plain.follow applyAnew i = (r.follow applyAnew i).plain := by
  cases i with
  | push name => rfl
  | apply op =>
    unfold follow
    dsimp only
    split
    · exact plain_applyComplement r
    · exact plain_applyBinary r op

theorem plain_followAll (r : Run) (instructions : List Instruction) :
    r.plain.followAll applyAnew instructions = (r.followAll applyAnew instructions).plain := by
  induction instructions generalizing r with
  | nil => rfl
  | cons i rest ih =>
    unfold followAll
    rw [plain_follow]
    cases r.follow applyAnew i with
    | running next => exact ih next
    | finished outcome => rfl

theorem plain_finish (r : Run) : r.plain.finish = r.finish.plain := by
  obtain ⟨w, stack, temporaries, stepNumber, journal, warnings⟩ := r
  match stack with
  | [] | _ :: _ :: _ => rfl
  | [last] =>
    have found : (w.setExplains false).find last = w.find last := rfl
    unfold finish
    dsimp only [plain]
    rw [found]
    cases w.find last <;> rfl

theorem plain_noteTokens (r : Run) (expression : String) :
    r.plain.noteTokens expression = (r.noteTokens expression).plain := by
  unfold noteTokens
  dsimp only
  split <;> rfl

/-! ### Concluding -/

def Single (r : Run) : Prop := ∃ last set, r.stack = [last] ∧ r.workspace.find last = .ok set

theorem Single.finish (h : r.Single) : ∃ answer, r.finish.result = .ok answer := by
  obtain ⟨last, set, stack, found⟩ := h
  refine ⟨.ofSet set, ?_⟩
  unfold Run.finish
  simp only [stack, found]
  rfl

theorem result_finish_of_several (several : r.stack.length ≠ 1) :
    r.finish.result = .error (.malformedExpression .notOneValue) := by
  unfold Run.finish
  split
  next last stack => simp [stack] at several
  next => rfl

theorem conclude_of_quiet {execute : Workspace.Executor} (quiet : r.workspace.explains = false) :
    r.conclude execute = r.finish := by
  simp [conclude, quiet]

theorem find_push (r : Run) (set : StoredSet) :
    (r.push set).workspace.find (temporaryName r.temporaries) = .ok set := by
  simp [push, Workspace.store, Workspace.withRegistry, Workspace.find, Registry.get?_insert]

theorem find_mergePair (execute : Workspace.Executor) (r : Run) (a b : String) : ∃ set,
    (r.mergePair execute a b).workspace.find (temporaryName r.temporaries) = .ok set := by
  unfold mergePair
  cases execute r.workspace .union a b with
  | error e => exact ⟨_, find_push (r.note _ _) _⟩
  | ok outcome =>
    obtain ⟨value, next⟩ := outcome
    cases value with
    | relation => exact ⟨_, find_push r _⟩
    | set set => exact ⟨_, find_push { r with workspace := next } _⟩

theorem single_mergeAll (execute : Workspace.Executor) {top : String} {below : List String}
    (alone : below = [] → ∃ set, r.workspace.find top = .ok set) :
    (r.mergeAll execute top below).Single := by
  induction below generalizing r top with
  | nil =>
    obtain ⟨set, found⟩ := alone rfl
    exact ⟨top, set, rfl, found⟩
  | cons next below ih =>
    exact ih fun _ => find_mergePair execute { r with stack := below } next top

/-- No operand is replaced by the empty set, and several are merged into a new one. -/
theorem single_recover (execute : Workspace.Executor) (several : r.stack.length ≠ 1) :
    (r.recover execute).Single := by
  unfold recover
  dsimp only
  split
  next stack =>
    have stack : r.stack = [] := stack
    exact ⟨_, _, by simp [push, note, warn, stack], find_push _ _⟩
  next top below stack =>
    have stack : r.stack = top :: below := stack
    refine single_mergeAll execute fun none => ?_
    exact absurd (by rw [stack, none]; rfl) several

/-- With more or less than one operand the plain mode fails and the explaining mode recovers. -/
theorem conclude_matches (r : Run) :
    (r.plain.conclude applyAnew).Matches (r.conclude applyAnew) := by
  have quiet : r.plain.conclude applyAnew = r.finish.plain := by
    rw [← plain_finish, conclude_of_quiet rfl]
  rw [quiet]
  unfold conclude
  -- A run that does not explain any more concludes like the plain one, whatever its stack.
  split
  next several =>
    simp only [Bool.and_eq_true, decide_eq_true_eq] at several
    exact .inr ⟨⟨_, result_finish_of_several several.1⟩,
      (single_recover applyAnew several.1).finish⟩
  next => exact .inl rfl

theorem evaluate_matches (r : Run) (instructions : List Instruction) :
    (r.plain.evaluate applyAnew instructions).Matches (r.evaluate applyAnew instructions) := by
  have followed := plain_followAll r.noteStart instructions
  change r.plain.noteStart.followAll applyAnew instructions = _ at followed
  unfold evaluate
  rw [followed]
  cases r.noteStart.followAll applyAnew instructions with
  | running last => exact conclude_matches last
  | finished outcome => exact .inl rfl

/-! ### Expressions -/

/-- An operation that lacks operands makes the expression malformed. -/
theorem follow_of_few (op : Operation)
    (few : r.stack = [] ∨ op ≠ .complement ∧ r.stack.length < 2) :
    ∃ fault, r.follow applyAnew (.apply op) =
      .finished (r.failed (.malformedExpression fault)) := by
  unfold follow applyComplement applyBinary
  dsimp only
  rcases stack : r.stack with _ | ⟨b, _ | ⟨a, below⟩⟩
  · split <;> exact ⟨_, rfl⟩
  · have proper : op ≠ .complement := (few.resolve_left (by simp [stack])).1
    exact ⟨_, by rw [if_neg proper]⟩
  · simp [stack] at few

/-- Without operands there is no answer in the plain mode: the first operation fails. -/
theorem evaluate_nameless (quiet : r.workspace.explains = false) (empty : r.stack = [])
    {instructions : List Instruction} (nameless : ∀ name, .push name ∉ instructions) :
    ∃ e, (r.evaluate applyAnew instructions).result = .error e := by
  cases instructions with
  | nil =>
    have several : r.noteStart.stack.length ≠ 1 := by simp [noteStart, note, empty]
    have quiet : r.noteStart.workspace.explains = false := quiet
    refine ⟨.malformedExpression .notOneValue, ?_⟩
    simp [evaluate, followAll, conclude_of_quiet quiet, result_finish_of_several several]
  | cons i rest =>
    cases i with
    | push name => exact absurd List.mem_cons_self (nameless name)
    | apply op =>
      obtain ⟨fault, failed⟩ := follow_of_few (r := r.noteStart) op (.inl empty)
      exact ⟨.malformedExpression fault, by simp only [evaluate, followAll, failed, Run.failed]⟩

/-- Without instructions the explaining mode recovers the empty set. -/
theorem evaluate_nothing (explains : r.workspace.explains = true) (empty : r.stack = []) :
    ∃ answer, (r.evaluate applyAnew []).result = .ok answer := by
  have several : r.noteStart.stack.length ≠ 1 := by simp [noteStart, note, empty]
  have explains : r.noteStart.workspace.explains = true := explains
  obtain ⟨answer, ended⟩ := (single_recover applyAnew several).finish
  exact ⟨answer, by simpa [evaluate, followAll, conclude, several, explains] using ended⟩

theorem undefinedNames_eq_nil {expression : String} :
    r.undefinedNames (tokens expression.toList) = [] ↔ r.workspace.Registered expression := by
  simp only [List.eq_nil_iff_forall_not_mem, mem_undefinedNames, not_and, Bool.not_eq_false,
    Workspace.Registered]

/-- In the plain mode there is an answer only if all names are registered. -/
theorem registered_of_ok {execute : Workspace.Executor} {expression : String} {answer : Answer}
    (quiet : r.workspace.explains = false)
    (ended : (r.evaluateInfix execute expression).result = .ok answer) :
    r.workspace.Registered expression := by
  have same := (r.noteTokens_frame expression).1
  rw [← same, ← undefinedNames_eq_nil]
  unfold evaluateInfix defineMissing at ended
  dsimp only at ended
  split at ended
  next none => simp [undefinedNames, List.isEmpty_iff.mp none]
  next =>
    rw [same, quiet] at ended
    cases missing : (r.noteTokens expression).undefinedNames (tokens expression.toList) with
    | nil => rfl
    | cons name rest => simp [missing, failed] at ended

/-- Instructions that only the explaining mode leaves out apply operations alone. -/
theorem instructions_cases (r : Run) (found : List Token) :
    r.instructions found = toPostfix found ∨
      r.workspace.explains = true ∧ r.instructions found = .ok [] ∧
        ∀ name, .name name ∉ found := by
  unfold instructions
  dsimp only
  split
  next nameless =>
    simp only [Bool.and_eq_true, Bool.not_eq_true', List.any_eq_false] at nameless
    exact .inr ⟨nameless.1, rfl, fun name member => nameless.2 (.name name) member rfl⟩
  next => exact .inl rfl

theorem plain_instructions (r : Run) (found : List Token) :
    r.plain.instructions found = toPostfix found := by
  simp [instructions, plain, Workspace.setExplains]

/-- If all names are registered, the two modes agree unless the plain one fails. -/
theorem evaluateInfix_matches {expression : String} (empty : r.stack = [])
    (registered : r.workspace.Registered expression) :
    (r.plain.evaluateInfix applyAnew expression).Matches
      (r.evaluateInfix applyAnew expression) := by
  obtain ⟨same, -, bottom⟩ := r.noteTokens_frame expression
  have defined : ∀ s : Run, s.workspace.Registered expression →
      s.defineMissing (tokens expression.toList) = .ok s := by
    intro s registered
    unfold defineMissing
    rw [undefinedNames_eq_nil.mpr registered]
  unfold evaluateInfix
  rw [plain_noteTokens]
  rw [← same] at registered
  rw [← bottom] at empty
  generalize r.noteTokens expression = s at registered empty ⊢
  dsimp only
  rw [defined s registered, defined s.plain registered]
  split
  · exact .inl rfl
  dsimp only
  have plain : s.plain.noteConversion.instructions (tokens expression.toList) =
    toPostfix (tokens expression.toList) := plain_instructions s.noteConversion _
  rw [plain]
  rcases s.noteConversion.instructions_cases (tokens expression.toList) with
    alike | ⟨explains, none, nameless⟩
  · rw [alike]
    cases toPostfix (tokens expression.toList) with
    | error e => exact .inl rfl
    | ok instructions =>
      exact evaluate_matches (s.noteConversion.notePostfix instructions) instructions
  -- Without names the plain mode comes to an operation that lacks its operands, or to the end with
  -- nothing at hand, while the explaining mode has nothing to follow.
  · rw [none]
    refine .inr ⟨?_, ?_⟩
    · cases ordered : toPostfix (tokens expression.toList) with
      | error e => exact ⟨e, rfl⟩
      | ok instructions =>
        refine evaluate_nameless (r := s.plain.noteConversion.notePostfix instructions) rfl empty
          fun name member => nameless name ?_
        exact token_mem_of_toPostfix ordered (.push name) member
    · exact evaluate_nothing (r := s.noteConversion.notePostfix []) explains empty

end Run

namespace Workspace

variable {w : Workspace} {expression : String}

/-- An operation fails alike in both modes, or gives the same answer. -/
theorem evaluateOperation_modes (sound : w.Sound) (op : Operation) (a b : String) :
    (∃ e, (w.setExplains false).evaluateOperation op a b = .error e ∧
        (w.setExplains true).evaluateOperation op a b = .error e) ∨
      ∃ answer steps v v',
        (w.setExplains false).evaluateOperation op a b = .ok (⟨answer, [], none⟩, v) ∧
          (w.setExplains true).evaluateOperation op a b = .ok (⟨answer, steps, none⟩, v') := by
  have operands (explains : Bool) : (w.setExplains explains).operand = w.operand := rfl
  have plain := (sound.setExplains false).apply op a b
  have explained := (sound.setExplains true).apply op a b
  unfold evaluateOperation evaluateOperationBy
  unfold compute at plain explained
  rw [operands] at plain explained ⊢
  rw [operands]
  cases left : w.operand a with
  | error e => exact .inl ⟨e, rfl, rfl⟩
  | ok x =>
    cases right : w.operand b with
    | error e => exact .inl ⟨e, rfl, rfl⟩
    | ok y =>
      rw [left, right] at plain explained
      obtain ⟨v, applied, -⟩ := plain
      obtain ⟨v', applied', -⟩ := explained
      rw [applied, applied']
      exact .inr ⟨.ofValue (combine op x y), _, v, v', rfl, rfl⟩

/-- If all names are registered, the two modes agree unless the plain one fails. -/
theorem modes_match (registered : w.Registered expression) :
    ((Run.start (w.setExplains false)).evaluateInfix applyAnew expression).Matches
      ((Run.start (w.setExplains true)).evaluateInfix applyAnew expression) :=
  Run.evaluateInfix_matches (r := Run.start (w.setExplains true)) rfl registered

/-- An answer without explanations is the one with them, and the same sets stay. -/
theorem evaluate_of_plain (sound : w.Sound) {evaluation : Evaluation}
    (evaluated : ((w.setExplains false).evaluate expression).result = .ok evaluation) :
    evaluation.steps = [] ∧ evaluation.error = none ∧
      (∃ steps, ((w.setExplains true).evaluate expression).result =
        .ok ⟨evaluation.answer, steps, none⟩) ∧
      ((w.setExplains true).evaluate expression).workspace.registry =
        ((w.setExplains false).evaluate expression).workspace.registry := by
  obtain ⟨results, -, left, -⟩ := evaluateBy_bare rfl (sound.setExplains false) expression
  obtain ⟨results', -, left', -⟩ := evaluateBy_bare rfl (sound.setExplains true) expression
  unfold evaluate at evaluated ⊢
  rw [results] at evaluated
  rw [results', registry_eq_of_bare left, registry_eq_of_bare left']
  cases ended :
      ((Run.start (w.setExplains false)).evaluateInfix applyAnew expression).result with
  | error e =>
    rcases evaluateBy_of_error ended with ⟨-, failed⟩ | ⟨explains, -⟩
    · cases failed.symm.trans evaluated
    · cases explains
  | ok answer =>
    obtain ⟨steps, none, answered⟩ := evaluateBy_of_ok ended
    cases answered.symm.trans evaluated
    have registered : w.Registered expression := Run.registered_of_ok rfl ended
    rcases modes_match registered with same | ⟨⟨e, failed⟩, -⟩
    · rw [same] at ended
      obtain ⟨steps', -, answered'⟩ := evaluateBy_of_ok (w := w.setExplains true) ended
      refine ⟨none rfl, rfl, ⟨steps', answered'⟩, ?_⟩
      rw [evaluateBy_workspace, evaluateBy_workspace, registry_dropTemporaries,
        registry_dropTemporaries, same]
      rfl
    · cases failed.symm.trans ended

/-- An error that is explained is the error without explanations. -/
theorem evaluate_of_explained (sound : w.Sound) (registered : w.Registered expression)
    {evaluation : Evaluation} {e : SetError}
    (evaluated : ((w.setExplains true).evaluate expression).result = .ok evaluation)
    (explained : evaluation.error = some e) :
    ((w.setExplains false).evaluate expression).result = .error e := by
  obtain ⟨results, -⟩ := evaluateBy_bare rfl (sound.setExplains false) expression
  obtain ⟨results', -⟩ := evaluateBy_bare rfl (sound.setExplains true) expression
  unfold evaluate at evaluated ⊢
  rw [results'] at evaluated
  rw [results]
  cases ended :
      ((Run.start (w.setExplains true)).evaluateInfix applyAnew expression).result with
  | ok answer =>
    obtain ⟨steps, -, answered⟩ := evaluateBy_of_ok ended
    cases answered.symm.trans evaluated
    cases explained
  | error e' =>
    rcases evaluateBy_of_error ended with ⟨quiet, -⟩ | ⟨-, steps, answered⟩
    · cases quiet
    · cases answered.symm.trans evaluated
      cases explained
      rcases modes_match registered with same | ⟨-, answer, answered⟩
      · have failed : (((Run.start (w.setExplains false)).evaluateInfix applyAnew
          expression).result) = .error e := by rw [same]; exact ended
        rcases evaluateBy_of_error failed with ⟨-, failed⟩ | ⟨explains, -⟩
        · exact failed
        · cases explains
      · cases answered.symm.trans ended

/-- Explanations change no answer, whatever the session so far. An operation fails in both modes
with the same error or gives the same answer. An expression with an answer in the plain mode has the
same one when it is explained, without an error, and leaves the same sets; and if all its names are
registered, an error beside an explained answer is the error of the plain mode. In the plain mode
there are no steps. -/
theorem explanations_invisible (registry : Registry) (calls : List Call) :
    let w := (ofRegistry registry).after apply calls
    let plain := w.setExplains false
    let explained := w.setExplains true
    (∀ op a b,
        (∃ e, plain.evaluateOperation op a b = .error e ∧
            explained.evaluateOperation op a b = .error e) ∨
          ∃ answer steps v v', plain.evaluateOperation op a b = .ok (⟨answer, [], none⟩, v) ∧
            explained.evaluateOperation op a b = .ok (⟨answer, steps, none⟩, v')) ∧
      (∀ expression evaluation, (plain.evaluate expression).result = .ok evaluation →
        evaluation.steps = [] ∧ evaluation.error = none ∧
          (∃ steps, (explained.evaluate expression).result =
            .ok ⟨evaluation.answer, steps, none⟩) ∧
          (explained.evaluate expression).workspace.registry =
            (plain.evaluate expression).workspace.registry) ∧
      ∀ expression evaluation e, w.Registered expression →
        (explained.evaluate expression).result = .ok evaluation → evaluation.error = some e →
        (plain.evaluate expression).result = .error e := by
  have sound := sound_of_reaches ⟨calls, rfl⟩ (sound_of_memo_nil (w := ofRegistry registry) rfl)
  exact ⟨evaluateOperation_modes sound, fun _ _ => evaluate_of_plain sound,
    fun _ _ _ registered => evaluate_of_explained sound registered⟩

/-- The complement of the only set has nothing that it could be taken against, and both modes say
so; the union of the set with itself has the same answer in both. -/
theorem explanations_invisible_complement :
    let w := (ofRegistry .empty).after apply [.addElements "A" [.text "a"]]
    (∃ steps, ((w.setExplains true).evaluate "Aᶜ").result =
        .ok ⟨.finite [], steps, some .noUniverse⟩) ∧
      ((w.setExplains false).evaluate "Aᶜ").result = .error .noUniverse ∧
      ∃ steps, ((w.setExplains true).evaluate "A ∪ A").result =
        .ok ⟨.finite [.text "a"], steps, none⟩ := by
  obtain ⟨-, answers, errors⟩ :=
    explanations_invisible .empty [.addElements "A" [.text "a"]]
  have failed : ((Run.start (((ofRegistry .empty).after apply
      [.addElements "A" [.text "a"]]).setExplains true)).evaluateInfix apply "Aᶜ").result =
        .error .noUniverse := by cbv
  have registered : ((ofRegistry .empty).after apply
      [.addElements "A" [.text "a"]]).Registered "Aᶜ" := by
    have found : tokens "Aᶜ".toList = [.name "A", .operation .complement] := by cbv
    intro name member
    rw [found] at member
    obtain rfl : name = "A" := by simpa using member
    cbv
  have answered : ((((ofRegistry .empty).after apply
      [.addElements "A" [.text "a"]]).setExplains false).evaluate "A ∪ A").result =
        .ok ⟨.finite [.text "a"], [], none⟩ := by cbv
  rcases evaluateBy_of_error failed with ⟨quiet, -⟩ | ⟨-, steps, explained⟩
  · cases quiet
  · exact ⟨⟨steps, explained⟩, errors "Aᶜ" _ _ registered explained rfl,
      (answers "A ∪ A" _ answered).2.2.1⟩

end Workspace

end DiscreteMath.SetAlgebra
