import DiscreteMath.Proofs.SetAlgebra.Failure

/-!
# What is on the stack of a run

An evaluation prepares a run with an empty stack in which all names of the expression are
registered. From there on the stack holds names of the expression and of temporary sets that the run
has stored, all of them registered. If the instructions are followed to their end, the evaluation
concludes with the stack that they leave.

## Main definitions

* `Run.Guarded` — no name on the stack will be stored under any more.
-/

namespace DiscreteMath.SetAlgebra

/-- No name on the stack will be stored under any more, unless as the universe. -/
def Run.Guarded (r : Run) : Prop := ∀ name ∈ r.stack, r.Safe name

namespace Run

variable {execute : Workspace.Executor} {r s : Run} {i : Instruction}
variable {instructions rest : List Instruction}

/-! ### Following instructions -/

theorem stack_operate {op : Operation} {a b remark : String}
    (next : r.operate execute op a b remark = .running s) :
    s.stack = temporaryName r.temporaries :: r.stack ∧ s.temporaries = r.temporaries + 1 := by
  unfold operate at next
  dsimp only at next
  split at next
  · cases next
  · cases next
  · cases next
    exact ⟨rfl, rfl⟩

/-- An instruction puts a name on the stack, or a new temporary set in the place of operands. -/
theorem stack_follow (next : r.follow execute i = .running s) :
    (∃ name, i = .push name ∧ s.stack = name :: r.stack ∧ s.temporaries = r.temporaries) ∨
      ∃ below, s.stack = temporaryName r.temporaries :: below ∧ (∀ name ∈ below, name ∈ r.stack) ∧
        s.temporaries = r.temporaries + 1 := by
  cases i with
  | push name =>
    cases next
    exact .inl ⟨name, rfl, rfl, rfl⟩
  | apply op =>
    right
    unfold follow at next
    dsimp only at next
    split at next
    · unfold applyComplement at next
      split at next
      · cases next
      next operand below stack =>
        split at next
        · cases next
        next chosen =>
          obtain ⟨same, count⟩ := stack_chooseUniverse chosen
          obtain ⟨pushed, next⟩ := stack_operate next
          refine ⟨below, ?_, fun name member => by simp [stack, member], ?_⟩
          · rw [pushed]
            exact congrArg₂ (temporaryName · :: ·) count same
          · rw [next]
            exact congrArg (· + 1) count
    · unfold applyBinary at next
      split at next
      next b a below stack =>
        obtain ⟨pushed, next⟩ := stack_operate next
        exact ⟨below, pushed, fun name member => by simp [stack, member], next⟩
      next => cases next

/-- Names that are pushed come to lie on the stack, the latest first. -/
theorem followAll_pushes (r : Run) (names : List String) :
    ∃ s, r.followAll execute (names.map .push) = .running s ∧
      s.stack = names.reverse ++ r.stack := by
  induction names generalizing r with
  | nil => exact ⟨r, rfl, rfl⟩
  | cons name rest ih =>
    obtain ⟨s, followed, stack⟩ := ih (r.pushName name)
    refine ⟨s, followed, ?_⟩
    rw [stack, List.reverse_cons, List.append_assoc]
    rfl

theorem guarded_follow (guarded : r.Guarded)
    (plain : ∀ name, i = .push name → isTemporary name = false)
    (next : r.follow execute i = .running s) : s.Guarded := by
  rcases stack_follow next with ⟨name, rfl, stack, count⟩ | ⟨below, stack, kept, count⟩
  · intro other member
    rw [stack] at member
    rcases List.mem_cons.mp member with rfl | member
    · exact .inl (plain other rfl)
    · exact (guarded other member).mono count.ge
  · intro other member
    rw [stack] at member
    rcases List.mem_cons.mp member with rfl | member
    · exact .inr ⟨_, by omega, rfl⟩
    · exact (guarded other (kept other member)).mono (by omega)

/-- What outlasts every instruction holds of every run that is come to. -/
theorem Passes.induction {P : Run → List Instruction → Prop}
    (step : ∀ r i rest s, P r (i :: rest) → r.follow execute i = .running s → P s rest)
    (h : P r instructions) (passes : r.Passes execute instructions s rest) : P s rest := by
  obtain ⟨done, rfl, followed⟩ := passes
  induction done generalizing r with
  | nil =>
    cases followed
    exact h
  | cons i done ih =>
    unfold followAll at followed
    split at followed
    next next stepped => exact ih followed (step r i _ next h stepped)
    next => cases followed

theorem guarded_passes (guarded : r.Guarded)
    (plain : ∀ name, .push name ∈ instructions → isTemporary name = false)
    (passes : r.Passes execute instructions s rest) : s.Guarded := by
  refine (Passes.induction (P := fun r rest =>
    r.Guarded ∧ ∀ name, .push name ∈ rest → isTemporary name = false) ?_ ⟨guarded, plain⟩ passes).1
  rintro r i rest s ⟨guarded, plain⟩ stepped
  refine ⟨guarded_follow guarded (fun name same => plain name ?_) stepped, fun name member =>
    plain name (List.mem_cons_of_mem i member)⟩
  simp [same]

theorem stocked_passes (stocked : r.Stocked instructions)
    (passes : r.Passes Workspace.apply instructions s rest) : s.Stocked rest := by
  refine passes.induction (fun r i rest s stocked stepped => ?_) stocked
  have orderly := orderly_follow stocked
  rwa [stepped] at orderly

/-! ### Preparing a run -/

theorem foldl_defineEmpty_frame (names : List String) (r : Run) :
    (names.foldl defineEmpty r).stack = r.stack ∧
      (names.foldl defineEmpty r).temporaries = r.temporaries ∧
      (names.foldl defineEmpty r).workspace.explains = r.workspace.explains ∧
      ∀ name, (names.foldl defineEmpty r).workspace.registry.contains name =
        (names.contains name || r.workspace.registry.contains name) := by
  induction names generalizing r with
  | nil => exact ⟨rfl, rfl, rfl, fun _ => rfl⟩
  | cons name rest ih =>
    obtain ⟨stack, count, explains, known⟩ := ih (r.defineEmpty name)
    refine ⟨stack, count, explains, fun other => ?_⟩
    have registered : (r.defineEmpty name).workspace.registry.contains other =
        (other == name || r.workspace.registry.contains other) := Registry.contains_insert ..
    rw [List.foldl_cons, known, registered, List.contains_cons, ← Bool.or_assoc,
      Bool.or_comm (rest.contains other)]

/-- Seeing to it that all names are registered leaves the rest of the run as it is. -/
theorem defineMissing_frame {expression : String} {prepared : Run}
    (defined : r.defineMissing (tokens expression.toList) = .ok prepared) :
    prepared.stack = r.stack ∧ prepared.temporaries = r.temporaries ∧
      prepared.workspace.explains = r.workspace.explains ∧
      prepared.workspace.Registered expression := by
  unfold defineMissing at defined
  split at defined
  next none =>
    cases defined
    exact ⟨rfl, rfl, rfl, undefinedNames_eq_nil.mp none⟩
  next some =>
    split at defined
    · cases defined
      obtain ⟨stack, count, explains, known⟩ := foldl_defineEmpty_frame
        (r.undefinedNames (tokens expression.toList)) (r.note _ _)
      refine ⟨stack, count, explains, fun name member => ?_⟩
      rw [known, Bool.or_eq_true, List.contains_iff_mem, mem_undefinedNames]
      by_cases present : r.workspace.registry.contains name = true
      · exact .inr present
      · exact .inl ⟨member, eq_false_of_ne_true present⟩
    · cases defined

/-- What will be put on the stack is a name of the expression. -/
theorem mem_tokens_of_push {found : List Token} {name : String}
    (ordered : r.instructions found = .ok instructions) (member : .push name ∈ instructions) :
    .name name ∈ found := by
  rcases r.instructions_cases found with alike | ⟨-, none, -⟩
  · rw [alike] at ordered
    exact token_mem_of_toPostfix ordered _ member
  · cases none.symm.trans ordered
    cases member

end Run

namespace Workspace.Visits

variable {w : Workspace} {expression : String} {s : Run} {rest : List Instruction}

theorem guarded (visits : w.Visits apply expression s rest) : s.Guarded := by
  obtain ⟨prepared, instructions, defined, ordered, passes⟩ := visits
  obtain ⟨stack, -⟩ := Run.defineMissing_frame defined
  have bottom := ((Run.start w).noteTokens_frame expression).2.2
  refine Run.guarded_passes (fun name member => ?_) (fun name member => ?_) passes
  · change name ∈ prepared.stack at member
    rw [stack, bottom] at member
    cases member
  · exact isTemporary_of_mem_tokens (Run.mem_tokens_of_push ordered member)

theorem stocked (visits : w.Visits apply expression s rest) : s.Stocked rest := by
  obtain ⟨prepared, instructions, defined, ordered, passes⟩ := visits
  obtain ⟨stack, -, -, registered⟩ := Run.defineMissing_frame defined
  have bottom := ((Run.start w).noteTokens_frame expression).2.2
  refine Run.stocked_passes (fun name known => ?_) passes
  rcases known with member | pushed
  · change name ∈ prepared.stack at member
    rw [stack, bottom] at member
    cases member
  · exact registered name (Run.mem_tokens_of_push ordered pushed)

/-- The names of the expression are registered once its instructions are followed. -/
theorem registered (visits : w.Visits apply expression s rest) :
    s.workspace.Registered expression := by
  obtain ⟨prepared, instructions, defined, ordered, passes⟩ := visits
  obtain ⟨-, -, -, known⟩ := Run.defineMissing_frame defined
  intro name member
  refine (keeps_contains w expression name).passes (r :=
    (prepared.noteConversion.notePostfix instructions).noteStart) (known name member)
    (fun t left passes => ⟨prepared, instructions, defined, ordered, passes⟩) passes

/-- An evaluation that follows its instructions to the end concludes, unless there was nothing to
evaluate. -/
theorem evaluateInfix (visits : w.Visits apply expression s []) :
    ((Run.start w).evaluateInfix apply expression = s.conclude apply) ∨
      s.stack = [] ∧ ∃ r : Run,
        (Run.start w).evaluateInfix apply expression = r.answered (.finite []) := by
  obtain ⟨prepared, instructions, defined, ordered, done, split, followed⟩ := visits
  obtain rfl : instructions = done := by rw [split, List.append_nil]
  have bottom := ((Run.start w).noteTokens_frame expression).2.2
  obtain ⟨stack, -⟩ := Run.defineMissing_frame defined
  unfold Run.evaluateInfix
  dsimp only
  split
  next nothing =>
    rw [List.isEmpty_iff.mp nothing] at ordered
    have none : prepared.instructions [] = .ok [] := by
      unfold Run.instructions
      dsimp only
      split <;> rfl
    obtain rfl : instructions = [] := Except.ok.inj (ordered.symm.trans none)
    cases followed
    exact .inr ⟨stack.trans bottom, _, rfl⟩
  next =>
    have ordered : prepared.noteConversion.instructions (tokens expression.toList) =
      .ok instructions := ordered
    left
    simp only [defined, ordered, Run.evaluate, followed]

end Workspace.Visits

end DiscreteMath.SetAlgebra
