import DiscreteMath.Proofs.SetAlgebra.Serving
import DiscreteMath.SetAlgebra.Session

/-!
# What an evaluation may do to a workspace

On the way an evaluation carries out operations, stores temporary sets, creates the universe and
registers missing sets, and it does nothing else. `Keeps` asks of a property that it outlasts each
of these; then it outlasts the evaluation of every expression.

## Main definitions

* `Workspace.Visits` — the runs that an evaluation comes to on the way.
* `Workspace.Gathers` — a run in which an evaluation registers such a universe.
* `Keeps` — a property outlasts what an evaluation does.
-/

namespace DiscreteMath.SetAlgebra

namespace Progress

def run : Progress → Run
  | running r => r
  | finished outcome => outcome.run

end Progress

namespace Run

/-- Following the instructions leads to the run `s`, with `rest` still to be followed. -/
def Passes (execute : Workspace.Executor) (r : Run) (instructions : List Instruction) (s : Run)
    (rest : List Instruction) : Prop :=
  ∃ done, instructions = done ++ rest ∧ r.followAll execute done = .running s

variable {execute : Workspace.Executor} {r s t : Run} {instructions rest left : List Instruction}

theorem Passes.refl : r.Passes execute instructions r instructions := ⟨[], rfl, rfl⟩

theorem Passes.step {i : Instruction} (next : r.follow execute i = .running s)
    (passes : s.Passes execute rest t left) : r.Passes execute (i :: rest) t left := by
  obtain ⟨done, rfl, followed⟩ := passes
  exact ⟨i :: done, rfl, by simp only [followAll, next, followed]⟩

theorem followAll_append (followed : r.followAll execute instructions = .running s) :
    r.followAll execute (instructions ++ rest) = s.followAll execute rest := by
  induction instructions generalizing r with
  | nil =>
    cases followed
    rfl
  | cons i more ih =>
    simp only [List.cons_append, followAll] at followed ⊢
    split at followed
    next next stepped => simpa only [stepped] using ih followed
    next => cases followed

theorem Passes.trans (first : r.Passes execute instructions s rest)
    (second : s.Passes execute rest t left) : r.Passes execute instructions t left := by
  obtain ⟨done, rfl, followed⟩ := first
  obtain ⟨more, rfl, followed'⟩ := second
  exact ⟨done ++ more, by simp, (followAll_append followed).trans followed'⟩

end Run

/-- The evaluation of the expression comes to the run `s`, with `rest` still to be followed. -/
def Workspace.Visits (execute : Workspace.Executor) (w : Workspace) (expression : String) (s : Run)
    (rest : List Instruction) : Prop :=
  let found := tokens expression.toList
  ∃ prepared instructions, ((Run.start w).noteTokens expression).defineMissing found =
      .ok prepared ∧ prepared.instructions found = .ok instructions ∧
    (prepared.noteConversion.notePostfix instructions).noteStart.Passes execute instructions s rest

theorem Workspace.Visits.passes {execute : Workspace.Executor} {w : Workspace} {expression : String}
    {s t : Run} {rest left : List Instruction} (visits : w.Visits execute expression s rest)
    (passes : s.Passes execute rest t left) : w.Visits execute expression t left := by
  obtain ⟨prepared, instructions, defined, ordered, before⟩ := visits
  exact ⟨prepared, instructions, defined, ordered, before.trans passes⟩

/-- In the run `s` the evaluation of the expression gathers a universe for a complement of the
operand: there is none yet, but there are several other sets, and they are not all empty. -/
structure Workspace.Gathers (execute : Workspace.Executor) (w : Workspace) (expression : String)
    (s : Run) (operand : String) : Prop where
  visits : ∃ rest, w.Visits execute expression s (.apply .complement :: rest)
  stack : ∃ below, s.stack = operand :: below
  absent : s.workspace.registry.contains universeName = false
  several : 1 < (s.workspace.registry.others operand).length
  nonempty : s.workspace.registry.gathered operand ≠ []

/-- A property of a workspace and of the number of temporary sets stored so far outlasts what the
evaluation of the expression in the workspace `start` does. -/
structure Keeps (execute : Workspace.Executor) (start : Workspace) (expression : String)
    (P : Workspace → Nat → Prop) : Prop where
  execution {w n op a b value next} :
    P w n → execute w op a b = .ok (value, next) → P next n
  temporary {w n op a b set next} : P w n → execute w op a b = .ok (.set set, next) →
    P (next.store (temporaryName n) set) (n + 1)
  nothing {w n} : P w n → P (w.store (temporaryName n) (.finite [])) (n + 1)
  whole {s operand} : P s.workspace s.temporaries →
    start.Gathers execute expression s operand →
    P (s.workspace.store universeName (.finite (s.workspace.registry.gathered operand)))
      s.temporaries
  missing {w n name} : P w n → start.explains = true → .name name ∈ tokens expression.toList →
    start.registry.contains name = false → P (w.store name (.finite [])) n

namespace Keeps

variable {execute : Workspace.Executor} {start : Workspace} {expression : String}
variable {P : Workspace → Nat → Prop} {r : Run}

theorem operate (keeps : Keeps execute start expression P) (h : P r.workspace r.temporaries)
    (op : Operation) (a b remark : String) :
    P (r.operate execute op a b remark).run.workspace
      (r.operate execute op a b remark).run.temporaries := by
  unfold Run.operate
  dsimp only
  split
  · exact h
  next executed => exact keeps.execution h executed
  next executed => exact keeps.temporary h executed

theorem chooseUniverse (keeps : Keeps execute start expression P) (h : P r.workspace r.temporaries)
    {rest : List Instruction}
    (visits : start.Visits execute expression r (.apply .complement :: rest))
    {operand whole : String} {below : List String} (stack : r.stack = operand :: below)
    {next : Run} (chosen : { r with stack := below }.chooseUniverse operand = .ok (next, whole)) :
    P next.workspace next.temporaries := by
  rcases Run.chooseUniverse_eq_ok chosen with ⟨-, rfl⟩ | ⟨elements, serving, same, -, count⟩
  · exact h
  · obtain ⟨rfl, absent, rfl, several, nonempty⟩ := Registry.gathers_of_serving serving
    have gathers : start.Gathers execute expression r operand :=
      ⟨⟨rest, visits⟩, ⟨below, stack⟩, absent, several, nonempty⟩
    rw [same, count]
    exact keeps.whole (s := r) h gathers

theorem follow (keeps : Keeps execute start expression P) (h : P r.workspace r.temporaries)
    {i : Instruction} {rest : List Instruction}
    (visits : start.Visits execute expression r (i :: rest)) :
    P (r.follow execute i).run.workspace (r.follow execute i).run.temporaries := by
  cases i with
  | push name => exact h
  | apply op =>
    unfold Run.follow
    dsimp only
    split
    next complement =>
      subst complement
      unfold Run.applyComplement
      split
      · exact h
      next stack =>
        split
        · exact h
        next r' whole chosen =>
          have kept : P r'.workspace r'.temporaries := keeps.chooseUniverse h visits stack chosen
          exact keeps.operate (r := r'.noteNumbered _ _) kept _ _ _ _
    · unfold Run.applyBinary
      split
      · refine keeps.operate ?_ _ _ _ _
        exact h
      · exact h

theorem followAll (keeps : Keeps execute start expression P) (h : P r.workspace r.temporaries)
    {instructions : List Instruction}
    (visits : ∀ s rest, r.Passes execute instructions s rest →
      start.Visits execute expression s rest) :
    P (r.followAll execute instructions).run.workspace
      (r.followAll execute instructions).run.temporaries := by
  induction instructions generalizing r with
  | nil => exact h
  | cons i rest ih =>
    have next := keeps.follow h (visits r (i :: rest) .refl)
    unfold Run.followAll
    split
    next r' followed =>
      rw [followed] at next
      exact ih next fun s left passes => visits s left (passes.step followed)
    next outcome followed =>
      rw [followed] at next
      exact next

theorem passes (keeps : Keeps execute start expression P) (h : P r.workspace r.temporaries)
    {instructions rest : List Instruction} {s : Run}
    (visits : ∀ t left, r.Passes execute instructions t left →
      start.Visits execute expression t left)
    (passes : r.Passes execute instructions s rest) : P s.workspace s.temporaries := by
  obtain ⟨done, rfl, followed⟩ := passes
  induction done generalizing r with
  | nil =>
    cases followed
    exact h
  | cons i done ih =>
    have next := keeps.follow h (visits r (i :: (done ++ rest)) .refl)
    unfold Run.followAll at followed
    split at followed
    next r' stepped =>
      rw [stepped] at next
      exact ih next followed fun t left passes => visits t left (passes.step stepped)
    next => cases followed

theorem mergePair (keeps : Keeps execute start expression P) (h : P r.workspace r.temporaries)
    (a b : String) :
    P (r.mergePair execute a b).workspace (r.mergePair execute a b).temporaries := by
  unfold Run.mergePair
  dsimp only
  cases executed : execute r.workspace .union a b with
  | error e => exact keeps.nothing h
  | ok outcome =>
    obtain ⟨value, next⟩ := outcome
    cases value with
    | relation => exact keeps.nothing h
    | set set => exact keeps.temporary h executed

theorem mergeAll (keeps : Keeps execute start expression P) (h : P r.workspace r.temporaries)
    (top : String) (below : List String) :
    P (r.mergeAll execute top below).workspace (r.mergeAll execute top below).temporaries := by
  induction below generalizing r top with
  | nil => exact h
  | cons next below ih =>
    refine ih (keeps.mergePair ?_ _ _) _
    exact h

theorem recover (keeps : Keeps execute start expression P) (h : P r.workspace r.temporaries) :
    P (r.recover execute).workspace (r.recover execute).temporaries := by
  unfold Run.recover
  dsimp only
  split
  · exact keeps.nothing h
  · refine keeps.mergeAll ?_ _ _
    exact h

end Keeps

theorem Run.run_finish (r : Run) :
    r.finish.run.workspace = r.workspace ∧ r.finish.run.temporaries = r.temporaries := by
  unfold finish
  split
  · split <;> exact ⟨rfl, rfl⟩
  · exact ⟨rfl, rfl⟩

theorem Run.noteTokens_frame (r : Run) (expression : String) :
    (r.noteTokens expression).workspace = r.workspace ∧
      (r.noteTokens expression).temporaries = r.temporaries ∧
      (r.noteTokens expression).stack = r.stack := by
  unfold noteTokens
  dsimp only
  split <;> exact ⟨rfl, rfl, rfl⟩

theorem Run.mem_undefinedNames (r : Run) {found : List Token} {name : String} :
    name ∈ r.undefinedNames found ↔
      .name name ∈ found ∧ r.workspace.registry.contains name = false := by
  simp only [undefinedNames, List.mem_eraseDups, List.mem_filterMap]
  constructor
  · rintro ⟨token, member, named⟩
    split at named
    · split at named
      · cases named
      next absent =>
        cases named
        exact ⟨member, eq_false_of_ne_true absent⟩
    · cases named
  · rintro ⟨member, absent⟩
    exact ⟨.name name, member, by simp [absent]⟩

/-- The evaluation ends before anything is registered, or the missing names are registered first
and then the instructions are followed, if there are any. -/
theorem Run.evaluateInfix_cases (execute : Workspace.Executor) (r : Run) (expression : String) :
    (∃ s result, r.evaluateInfix execute expression = ⟨s, result⟩ ∧
        s.workspace = r.workspace ∧ s.temporaries = r.temporaries ∧
        ∀ answer, result = .ok answer → answer = .finite []) ∨
      ∃ s, (r.noteTokens expression).defineMissing (tokens expression.toList) = .ok s ∧
        ((∃ e, r.evaluateInfix execute expression = s.noteConversion.failed e) ∨
          ∃ instructions, s.instructions (tokens expression.toList) = .ok instructions ∧
            r.evaluateInfix execute expression =
              (s.noteConversion.notePostfix instructions).evaluate execute instructions) := by
  obtain ⟨same, count, -⟩ := r.noteTokens_frame expression
  unfold evaluateInfix
  dsimp only
  split
  · exact .inl ⟨_, _, rfl, same, count, fun _ same => (Except.ok.inj same).symm⟩
  · cases defined : (r.noteTokens expression).defineMissing (tokens expression.toList) with
    | error e => exact .inl ⟨_, _, rfl, same, count, nofun⟩
    | ok s =>
      refine .inr ⟨s, rfl, ?_⟩
      dsimp only
      have alike : s.noteConversion.instructions (tokens expression.toList) =
        s.instructions (tokens expression.toList) := rfl
      rw [alike]
      cases ordered : s.instructions (tokens expression.toList) with
      | error e => exact .inl ⟨e, rfl⟩
      | ok instructions => exact .inr ⟨instructions, rfl, rfl⟩

/-! ### Answers -/

/-- The answer, if there is one, is the empty set, a relation or a set at hand. -/
def Finished.Grounded (f : Finished) : Prop :=
  ∀ answer, f.result = .ok answer → answer = .finite [] ∨
    (∃ a b verdict, answer = .relation a b verdict) ∨
    ∃ name set, f.run.workspace.find name = .ok set ∧ answer = .ofSet set

namespace Run

variable {execute : Workspace.Executor} {r : Run} {f : Finished}

theorem grounded_failed (r : Run) (e : SetError) : (r.failed e).Grounded := nofun

theorem grounded_operate {op : Operation} {a b remark : String}
    (ended : r.operate execute op a b remark = .finished f) : f.Grounded := by
  unfold operate at ended
  dsimp only at ended
  split at ended
  · cases ended
    exact grounded_failed r _
  · cases ended
    intro answer same
    cases same
    exact .inr (.inl ⟨_, _, _, rfl⟩)
  · cases ended

theorem grounded_follow {i : Instruction} (ended : r.follow execute i = .finished f) :
    f.Grounded := by
  cases i with
  | push name => cases ended
  | apply op =>
    unfold follow at ended
    dsimp only at ended
    split at ended
    · unfold applyComplement at ended
      split at ended
      · cases ended
        exact grounded_failed r _
      · split at ended
        · cases ended
          exact grounded_failed r _
        · exact grounded_operate ended
    · unfold applyBinary at ended
      split at ended
      · exact grounded_operate ended
      · cases ended
        exact grounded_failed r _

theorem grounded_followAll {instructions : List Instruction}
    (ended : r.followAll execute instructions = .finished f) : f.Grounded := by
  induction instructions generalizing r with
  | nil => cases ended
  | cons i rest ih =>
    unfold followAll at ended
    split at ended
    · exact ih ended
    next followed =>
      cases ended
      exact grounded_follow followed

theorem grounded_finish (r : Run) : r.finish.Grounded := by
  unfold finish
  split
  next last _ =>
    split
    · exact grounded_failed _ _
    next set found =>
      intro answer same
      cases same
      exact .inr (.inr ⟨last, set, found, rfl⟩)
  · exact grounded_failed r _

theorem grounded_evaluate (r : Run) (instructions : List Instruction) :
    (r.evaluate execute instructions).Grounded := by
  unfold evaluate
  split
  next last _ =>
    unfold conclude
    split
    · exact grounded_finish _
    · exact grounded_finish last
  next followed => exact grounded_followAll followed

theorem grounded_evaluateInfix (r : Run) (expression : String) :
    (r.evaluateInfix execute expression).Grounded := by
  rcases r.evaluateInfix_cases execute expression with ⟨s, result, ended, -, -, empty⟩ |
    ⟨s, -, ⟨e, ended⟩ | ⟨instructions, -, ended⟩⟩
  · rw [ended]
    exact fun answer same => .inl (empty answer same)
  · rw [ended]
    exact grounded_failed _ e
  · rw [ended]
    exact grounded_evaluate _ instructions

end Run

namespace Keeps

variable {execute : Workspace.Executor} {start : Workspace} {expression : String}
variable {P : Workspace → Nat → Prop} {r : Run}

theorem conclude (keeps : Keeps execute start expression P) (h : P r.workspace r.temporaries) :
    P (r.conclude execute).run.workspace (r.conclude execute).run.temporaries := by
  unfold Run.conclude
  split
  · rw [(Run.run_finish _).1, (Run.run_finish _).2]
    exact keeps.recover h
  · rw [(Run.run_finish _).1, (Run.run_finish _).2]
    exact h

theorem evaluate (keeps : Keeps execute start expression P) (h : P r.workspace r.temporaries)
    {instructions : List Instruction}
    (visits : ∀ s rest, r.noteStart.Passes execute instructions s rest →
      start.Visits execute expression s rest) :
    P (r.evaluate execute instructions).run.workspace
      (r.evaluate execute instructions).run.temporaries := by
  have next := keeps.followAll (r := r.noteStart) h visits
  unfold Run.evaluate
  split
  next last followed =>
    rw [followed] at next
    exact keeps.conclude next
  next outcome followed =>
    rw [followed] at next
    exact next

theorem foldl_defineEmpty (keeps : Keeps execute start expression P)
    (h : P r.workspace r.temporaries) (explains : start.explains = true) {names : List String}
    (fresh : ∀ name ∈ names,
      .name name ∈ tokens expression.toList ∧ start.registry.contains name = false) :
    P (names.foldl Run.defineEmpty r).workspace (names.foldl Run.defineEmpty r).temporaries := by
  induction names generalizing r with
  | nil => exact h
  | cons name rest ih =>
    obtain ⟨member, absent⟩ := fresh name List.mem_cons_self
    refine ih (keeps.missing h explains member absent) fun other member => ?_
    exact fresh other (List.mem_cons_of_mem name member)

theorem defineMissing (keeps : Keeps execute start expression P) (h : P r.workspace r.temporaries)
    (fresh : r.workspace = start) {next : Run}
    (defined : r.defineMissing (tokens expression.toList) = .ok next) :
    P next.workspace next.temporaries := by
  unfold Run.defineMissing at defined
  split at defined
  · cases defined
    exact h
  · split at defined
    next explains =>
      cases defined
      refine keeps.foldl_defineEmpty ?_ (fresh ▸ explains) fun name member => ?_
      · exact h
      · rw [← fresh]
        exact r.mem_undefinedNames.mp member
    · cases defined

theorem evaluateInfix (keeps : Keeps execute start expression P) (h : P start 0) :
    P ((Run.start start).evaluateInfix execute expression).run.workspace
      ((Run.start start).evaluateInfix execute expression).run.temporaries := by
  obtain ⟨same, count, -⟩ := (Run.start start).noteTokens_frame expression
  rcases (Run.start start).evaluateInfix_cases execute expression with
    ⟨s, result, ended, rest, rest', -⟩ | ⟨s, defined, next⟩
  · rw [ended]
    change P s.workspace s.temporaries
    rwa [rest, rest']
  · have kept : P s.workspace s.temporaries :=
      keeps.defineMissing (by rwa [same, count]) same defined
    rcases next with ⟨e, ended⟩ | ⟨instructions, ordered, ended⟩
    · rw [ended]
      exact kept
    · rw [ended]
      refine keeps.evaluate ?_ fun t left passes => ⟨s, instructions, defined, ordered, passes⟩
      exact kept

/-- What holds at the start holds of every run on the way. -/
theorem visited (keeps : Keeps execute start expression P) (h : P start 0) {s : Run}
    {rest : List Instruction} (visits : start.Visits execute expression s rest) :
    P s.workspace s.temporaries := by
  obtain ⟨same, count, -⟩ := (Run.start start).noteTokens_frame expression
  obtain ⟨prepared, instructions, defined, ordered, passes⟩ := visits
  have kept : P prepared.workspace prepared.temporaries :=
    keeps.defineMissing (by rwa [same, count]) same defined
  refine keeps.passes ?_ (fun t left passes => ⟨_, _, defined, ordered, passes⟩) passes
  exact kept

/-- What holds after the instructions left to a run on the way holds in the end. -/
theorem ends (keeps : Keeps execute start expression P) {s : Run} {rest : List Instruction}
    (visits : start.Visits execute expression s rest) (some : rest ≠ [])
    (h : P (s.followAll execute rest).run.workspace (s.followAll execute rest).run.temporaries) :
    P ((Run.start start).evaluateInfix execute expression).run.workspace
      ((Run.start start).evaluateInfix execute expression).run.temporaries := by
  obtain ⟨prepared, instructions, defined, ordered, done, rfl, followed⟩ := visits
  have nonempty : (tokens expression.toList).isEmpty = false := by
    refine List.isEmpty_eq_false_iff.mpr fun none => some ?_
    rw [none] at ordered
    have nothing : prepared.instructions [] = .ok [] := by
      unfold Run.instructions
      dsimp only
      split <;> rfl
    exact (List.append_eq_nil_iff.mp (Except.ok.inj (ordered.symm.trans nothing))).2
  have ordered : prepared.noteConversion.instructions (tokens expression.toList) =
    .ok (done ++ rest) := ordered
  unfold Run.evaluateInfix
  simp only [nonempty, Bool.false_eq_true, if_false, defined, ordered]
  unfold Run.evaluate
  rw [Run.followAll_append followed]
  cases followed' : s.followAll execute rest with
  | running last =>
    rw [followed'] at h
    exact keeps.conclude h
  | finished outcome =>
    rw [followed'] at h
    exact h

end Keeps

/-! ### Outcomes -/

namespace Workspace

variable (execute : Executor) (w : Workspace) (expression : String)

theorem registry_dropTemporaries :
    w.dropTemporaries.registry = w.registry.withoutTemporaries := by
  unfold dropTemporaries
  split
  · rfl
  next clean => exact (Registry.withoutTemporaries_eq_self (eq_false_of_ne_true clean)).symm

theorem evaluateBy_workspace :
    (w.evaluateBy execute expression).workspace =
      ((Run.start w).evaluateInfix execute expression).run.workspace.dropTemporaries := by
  unfold evaluateBy
  dsimp only
  split
  · rfl
  · split <;> rfl

variable {execute w expression}

/-- The result of an evaluation that gave an answer. -/
theorem evaluateBy_of_ok {answer : Answer}
    (ended : ((Run.start w).evaluateInfix execute expression).result = .ok answer) :
    ∃ steps, (w.explains = false → steps = []) ∧
      (w.evaluateBy execute expression).result = .ok ⟨answer, steps, none⟩ := by
  refine ⟨if w.explains then ((Run.start w).evaluateInfix execute expression).run.journal else [],
    fun quiet => by simp [quiet], ?_⟩
  unfold evaluateBy
  simp only [ended]

/-- The result of an evaluation that failed. -/
theorem evaluateBy_of_error {e : SetError}
    (ended : ((Run.start w).evaluateInfix execute expression).result = .error e) :
    (w.explains = false ∧ (w.evaluateBy execute expression).result = .error e) ∨
      w.explains = true ∧ ∃ steps,
        (w.evaluateBy execute expression).result = .ok ⟨.finite [], steps, some e⟩ := by
  unfold evaluateBy
  simp only [ended]
  split
  next explains => exact .inr ⟨explains, _, rfl⟩
  next quiet => exact .inl ⟨eq_false_of_ne_true quiet, rfl⟩

end Workspace

end DiscreteMath.SetAlgebra
