import DiscreteMath.Proofs.SetAlgebra.Frame

/-!
# The memo is invisible

Every entry of the memo is what its operation gives on the registry at hand: whatever changes the
registry empties the memo. So a session replies the same whether operations are looked up in the
memo or computed anew, and it leaves the same sets.

## Main definitions

* `Workspace.Sound` — the memo agrees with the registry.
* `bare` — a workspace or a run without memo and count.
* `Workspace.ChangesRegistry` — a change that the registry alone decides.
-/

namespace DiscreteMath.SetAlgebra

namespace Workspace

def bare (w : Workspace) : Workspace := { w with memo := [], computations := 0 }

/-- Every value in the memo is what its operation gives. -/
def Sound (w : Workspace) : Prop :=
  ∀ op a b known, w.memo.lookup (op, a, b) = some known → w.compute op a b = .ok known

theorem sound_of_memo_nil {w : Workspace} (h : w.memo = []) : w.Sound := by
  intro op a b known found
  rw [h] at found
  cases found

@[simp] theorem sound_withRegistry (w : Workspace) (registry : Registry) :
    (w.withRegistry registry).Sound := sound_of_memo_nil rfl

@[simp] theorem sound_store (w : Workspace) (name : String) (set : StoredSet) :
    (w.store name set).Sound := sound_of_memo_nil rfl

theorem Sound.dropTemporaries {w : Workspace} (h : w.Sound) : w.dropTemporaries.Sound := by
  unfold Workspace.dropTemporaries
  split
  · exact sound_withRegistry _ _
  · exact h

theorem Sound.setExplains {w : Workspace} (h : w.Sound) (explains : Bool) :
    (w.setExplains explains).Sound := h

/-- The shape in which workspaces are compared that differ in memo and count alone. -/
theorem exists_of_bare_eq {v w : Workspace} (h : v.bare = w.bare) :
    ∃ memo count, w = { v with memo := memo, computations := count } := by
  obtain ⟨registry, memo, explains, count⟩ := w
  obtain ⟨registry', memo', explains', count'⟩ := v
  simp only [bare, Workspace.mk.injEq, true_and, and_true] at h
  exact ⟨memo, count, by simp [h]⟩

/-- Carrying out an operation, by the value that it has anew. -/
theorem apply_eq (w : Workspace) (op : Operation) (a b : String) :
    w.apply op a b = (w.compute op a b).map fun value =>
      let computed := { w with computations := w.computations + 1 }
      if w.explains then (value, computed)
      else match w.memo.lookup (op, a, b) with
        | some known => (known, w)
        | none => (value, { computed with memo := ((op, a, b), value) :: w.memo }) := by
  unfold apply compute
  cases w.operand a with
  | error e => rfl
  | ok left =>
    cases w.operand b with
    | error e => rfl
    | ok right =>
      obtain ⟨registry, memo, explains, count⟩ := w
      cases explains with
      | true => rfl
      | false =>
        simp only [bind, Except.bind, pure, Except.pure, Except.map, Bool.false_eq_true, if_false]
        cases memo.lookup (op, a, b) <;> rfl

/-- With a sound memo an operation has the value that it has anew, and the memo stays sound. -/
theorem Sound.apply {w : Workspace} (h : w.Sound) (op : Operation) (a b : String) :
    match w.compute op a b with
    | .error e => w.apply op a b = .error e
    | .ok value =>
      ∃ next, w.apply op a b = .ok (value, next) ∧ next.bare = w.bare ∧ next.Sound := by
  cases computed : w.compute op a b with
  | error e => simp [apply_eq, computed, Except.map]
  | ok value =>
    simp only [apply_eq, computed, Except.map]
    split
    · exact ⟨_, rfl, rfl, h⟩
    · split
      next known found =>
        have same : value = known := by
          have := h op a b known found
          rw [computed] at this
          exact Except.ok.inj this
        exact ⟨w, by rw [same], rfl, h⟩
      next =>
        refine ⟨_, rfl, rfl, ?_⟩
        intro op' a' b' known found
        rw [List.lookup_cons] at found
        split at found
        next same =>
          obtain ⟨rfl, rfl, rfl⟩ : op' = op ∧ a' = a ∧ b' = b := by simpa using same
          cases found
          exact computed
        next => exact h op' a' b' known found

/-- What a sound memo gives is what the operation gives. -/
theorem Sound.of_apply {v w : Workspace} (h : v.Sound) {op : Operation} {a b : String}
    {value : Value} (applied : v.apply op a b = .ok (value, w)) :
    v.compute op a b = .ok value ∧ w.bare = v.bare ∧ w.Sound := by
  have looked := h.apply op a b
  cases computed : v.compute op a b with
  | error e =>
    rw [computed] at looked
    cases looked.symm.trans applied
  | ok anew =>
    rw [computed] at looked
    obtain ⟨next, found, same, sound⟩ := looked
    cases found.symm.trans applied
    exact ⟨rfl, same, sound⟩

/-- An operation looked up in the memo and computed anew: the same error, or the same value and
workspaces that differ in memo and count alone. -/
theorem Sound.apply_or {v w : Workspace} (h : v.Sound) (same : v.bare = w.bare) (op : Operation)
    (a b : String) :
    (∃ e, v.apply op a b = .error e ∧ w.applyAnew op a b = .error e) ∨
      ∃ value v' w', v.apply op a b = .ok (value, v') ∧ w.applyAnew op a b = .ok (value, w') ∧
        v'.bare = w'.bare ∧ v'.Sound := by
  obtain ⟨memo, count, rfl⟩ := exists_of_bare_eq same
  have looked := h.apply op a b
  have anew : ({ v with memo := memo, computations := count } : Workspace).compute op a b =
    v.compute op a b := rfl
  cases computed : v.compute op a b with
  | error e =>
    rw [computed] at looked
    exact .inl ⟨e, looked, by simp [applyAnew, anew, computed, bind, Except.bind]⟩
  | ok value =>
    rw [computed] at looked
    obtain ⟨next, found, same', sound⟩ := looked
    refine .inr ⟨value, next, { v with memo := memo, computations := count + 1 }, found, ?_, same',
      sound⟩
    simp only [applyAnew, anew, computed, bind, Except.bind]
    rfl

theorem registry_eq_of_bare {v w : Workspace} (h : v.bare = w.bare) : v.registry = w.registry :=
  show v.bare.registry = w.bare.registry from congrArg registry h

theorem label_eq_of_bare {v w : Workspace} (h : v.bare = w.bare) : v.label = w.label :=
  show v.bare.label = w.bare.label from congrArg label h

end Workspace

/-! ### Runs -/

namespace Run

def bare (r : Run) : Run := { r with workspace := r.workspace.bare }

theorem exists_of_bare_eq {r s : Run} (h : r.bare = s.bare) :
    ∃ w, s = { r with workspace := w } ∧ r.workspace.bare = w.bare := by
  obtain ⟨w, stack, temporaries, stepNumber, journal, warnings⟩ := r
  obtain ⟨w', stack', temporaries', stepNumber', journal', warnings'⟩ := s
  simp only [bare, Run.mk.injEq] at h
  obtain ⟨same, rfl, rfl, rfl, rfl, rfl⟩ := h
  exact ⟨w', rfl, same⟩

theorem bare_eq {v w : Workspace} (h : v.bare = w.bare) (r : Run) :
    ({ r with workspace := v } : Run).bare = ({ r with workspace := w } : Run).bare := by
  simp only [bare, h]

end Run

def Finished.bare (f : Finished) : Finished := { f with run := f.run.bare }

namespace Progress

def bare : Progress → Progress
  | running r => running r.bare
  | finished outcome => finished outcome.bare

theorem running_or_finished {p q : Progress} (h : p.bare = q.bare) :
    (∃ r s, p = .running r ∧ q = .running s ∧ r.bare = s.bare) ∨
      ∃ f g, p = .finished f ∧ q = .finished g ∧ f.bare = g.bare := by
  cases p with
  | running r =>
    cases q with
    | running s => exact .inl ⟨r, s, rfl, rfl, running.inj h⟩
    | finished g => cases h
  | finished f =>
    cases q with
    | running s => cases h
    | finished g => exact .inr ⟨f, g, rfl, rfl, finished.inj h⟩

end Progress

namespace Run

variable {r s : Run}

theorem note_bare (same : r.bare = s.bare) (headline detail : String) :
    (r.note headline detail).bare = (s.note headline detail).bare := by
  obtain ⟨w, rfl, alike⟩ := exists_of_bare_eq same
  exact bare_eq alike (r.note headline detail)

theorem noteNumbered_bare (same : r.bare = s.bare) (headline detail : String) :
    (r.noteNumbered headline detail).bare = (s.noteNumbered headline detail).bare := by
  obtain ⟨w, rfl, alike⟩ := exists_of_bare_eq same
  exact bare_eq alike (r.noteNumbered headline detail)

theorem warn_bare (same : r.bare = s.bare) (warning : String) :
    (r.warn warning).bare = (s.warn warning).bare := by
  obtain ⟨w, rfl, alike⟩ := exists_of_bare_eq same
  exact bare_eq alike (r.warn warning)

theorem restack_bare (same : r.bare = s.bare) (stack : List String) :
    ({ r with stack := stack } : Run).bare = ({ s with stack := stack } : Run).bare := by
  obtain ⟨w, rfl, alike⟩ := exists_of_bare_eq same
  exact bare_eq alike { r with stack := stack }

theorem operate_bare (same : r.bare = s.bare) (sound : r.workspace.Sound) (op : Operation)
    (a b remark : String) :
    (r.operate Workspace.apply op a b remark).bare =
        (s.operate Workspace.applyAnew op a b remark).bare ∧
      (r.operate Workspace.apply op a b remark).run.workspace.Sound := by
  obtain ⟨w, rfl, alike⟩ := exists_of_bare_eq same
  unfold operate
  rw [Workspace.label_eq_of_bare alike]
  rcases sound.apply_or alike op a b with ⟨e, left, right⟩ |
    ⟨value, v', w', left, right, alike', sound'⟩
  · rw [left, right]
    exact ⟨congrArg (fun r => Progress.finished ⟨r, _⟩) same, sound⟩
  · rw [left, right]
    obtain ⟨memo, count, rfl⟩ := Workspace.exists_of_bare_eq alike'
    cases value with
    | relation x y verdict => exact ⟨rfl, sound'⟩
    | set set => exact ⟨rfl, Workspace.sound_store _ _ _⟩

/-- The universe is chosen by the registry alone. -/
theorem chooseUniverse_or (same : r.bare = s.bare) (sound : r.workspace.Sound) (a : String) :
    (∃ e, r.chooseUniverse a = .error e ∧ s.chooseUniverse a = .error e) ∨
      ∃ r' s' whole, r.chooseUniverse a = .ok (r', whole) ∧ s.chooseUniverse a = .ok (s', whole) ∧
        r'.bare = s'.bare ∧ r'.workspace.Sound := by
  obtain ⟨w, rfl, alike⟩ := exists_of_bare_eq same
  obtain ⟨memo, count, rfl⟩ := Workspace.exists_of_bare_eq alike
  unfold chooseUniverse
  dsimp only
  split
  · exact .inr ⟨_, _, _, rfl, rfl, rfl, sound⟩
  split
  · exact .inl ⟨_, rfl, rfl⟩
  · exact .inr ⟨_, _, _, rfl, rfl, rfl, sound⟩
  · split
    · exact .inr ⟨_, _, _, rfl, rfl, rfl, sound⟩
    · exact .inr ⟨_, _, _, rfl, rfl, rfl, Workspace.sound_store _ _ _⟩

theorem applyComplement_bare (same : r.bare = s.bare) (sound : r.workspace.Sound) :
    (r.applyComplement Workspace.apply).bare = (s.applyComplement Workspace.applyAnew).bare ∧
      (r.applyComplement Workspace.apply).run.workspace.Sound := by
  obtain ⟨w, rfl, alike⟩ := exists_of_bare_eq same
  obtain ⟨v, stack, temporaries, stepNumber, journal, warnings⟩ := r
  cases stack with
  | nil => exact ⟨congrArg (fun r => Progress.finished ⟨r, _⟩) same, sound⟩
  | cons a rest =>
    unfold applyComplement
    dsimp only
    rcases chooseUniverse_or (restack_bare same rest) sound a with ⟨e, left, right⟩ |
      ⟨r', s', whole, left, right, same', sound'⟩
    · rw [left, right]
      exact ⟨congrArg (fun r => Progress.finished ⟨r, _⟩) same, sound⟩
    · rw [left, right]
      obtain ⟨w', rfl, alike'⟩ := exists_of_bare_eq same'
      dsimp only
      rw [Workspace.label_eq_of_bare alike']
      exact operate_bare (noteNumbered_bare same' _ _) sound' _ _ _ _

theorem applyBinary_bare (same : r.bare = s.bare) (sound : r.workspace.Sound) (op : Operation) :
    (r.applyBinary Workspace.apply op).bare = (s.applyBinary Workspace.applyAnew op).bare ∧
      (r.applyBinary Workspace.apply op).run.workspace.Sound := by
  obtain ⟨w, rfl, alike⟩ := exists_of_bare_eq same
  obtain ⟨v, stack, temporaries, stepNumber, journal, warnings⟩ := r
  match stack with
  | [] | [_] => exact ⟨congrArg (fun r => Progress.finished ⟨r, _⟩) same, sound⟩
  | b :: a :: rest =>
    unfold applyBinary
    dsimp only
    rw [Workspace.label_eq_of_bare alike]
    exact operate_bare (noteNumbered_bare (restack_bare same rest) _ _) sound _ _ _ _

theorem pushName_bare (same : r.bare = s.bare) (name : String) :
    (r.pushName name).bare = (s.pushName name).bare := by
  obtain ⟨w, rfl, alike⟩ := exists_of_bare_eq same
  obtain ⟨memo, count, rfl⟩ := Workspace.exists_of_bare_eq alike
  rfl

theorem follow_bare (same : r.bare = s.bare) (sound : r.workspace.Sound) (i : Instruction) :
    (r.follow Workspace.apply i).bare = (s.follow Workspace.applyAnew i).bare ∧
      (r.follow Workspace.apply i).run.workspace.Sound := by
  cases i with
  | push name => exact ⟨congrArg Progress.running (pushName_bare same name), sound⟩
  | apply op =>
    by_cases h : op = .complement
    · simpa only [follow, if_pos h] using applyComplement_bare same sound
    · simpa only [follow, if_neg h] using applyBinary_bare same sound op

theorem followAll_bare (same : r.bare = s.bare) (sound : r.workspace.Sound)
    (instructions : List Instruction) :
    (r.followAll Workspace.apply instructions).bare =
        (s.followAll Workspace.applyAnew instructions).bare ∧
      (r.followAll Workspace.apply instructions).run.workspace.Sound := by
  induction instructions generalizing r s with
  | nil => exact ⟨congrArg Progress.running same, sound⟩
  | cons i rest ih =>
    obtain ⟨next, sound'⟩ := follow_bare same sound i
    unfold followAll
    rcases Progress.running_or_finished next with ⟨r', s', left, right, same'⟩ |
      ⟨f, g, left, right, same'⟩
    · rw [left] at sound'
      rw [left, right]
      exact ih same' sound'
    · rw [left] at sound'
      rw [left, right]
      exact ⟨congrArg Progress.finished same', sound'⟩

theorem mergePair_bare (same : r.bare = s.bare) (sound : r.workspace.Sound) (a b : String) :
    (r.mergePair Workspace.apply a b).bare = (s.mergePair Workspace.applyAnew a b).bare ∧
      (r.mergePair Workspace.apply a b).workspace.Sound := by
  obtain ⟨w, rfl, alike⟩ := exists_of_bare_eq same
  unfold mergePair
  rw [Workspace.label_eq_of_bare alike]
  rcases sound.apply_or alike .union a b with ⟨e, left, right⟩ |
    ⟨value, v', w', left, right, alike', sound'⟩
  · rw [left, right]
    obtain ⟨memo, count, rfl⟩ := Workspace.exists_of_bare_eq alike
    exact ⟨rfl, Workspace.sound_store _ _ _⟩
  · rw [left, right]
    obtain ⟨memo, count, rfl⟩ := Workspace.exists_of_bare_eq alike'
    cases value with
    | relation x y verdict =>
      obtain ⟨memo, count, rfl⟩ := Workspace.exists_of_bare_eq alike
      exact ⟨rfl, Workspace.sound_store _ _ _⟩
    | set set => exact ⟨rfl, Workspace.sound_store _ _ _⟩

theorem mergeAll_bare (same : r.bare = s.bare) (sound : r.workspace.Sound) (top : String)
    (below : List String) :
    (r.mergeAll Workspace.apply top below).bare = (s.mergeAll Workspace.applyAnew top below).bare ∧
      (r.mergeAll Workspace.apply top below).workspace.Sound := by
  induction below generalizing r s top with
  | nil => exact ⟨restack_bare same [top], sound⟩
  | cons next below ih =>
    obtain ⟨w, rfl, alike⟩ := exists_of_bare_eq same
    obtain ⟨merged, sound'⟩ := mergePair_bare (restack_bare same below) sound next top
    exact ih merged sound' _

theorem recover_bare (same : r.bare = s.bare) (sound : r.workspace.Sound) :
    (r.recover Workspace.apply).bare = (s.recover Workspace.applyAnew).bare ∧
      (r.recover Workspace.apply).workspace.Sound := by
  obtain ⟨w, rfl, alike⟩ := exists_of_bare_eq same
  obtain ⟨v, stack, temporaries, stepNumber, journal, warnings⟩ := r
  cases stack with
  | nil =>
    obtain ⟨memo, count, rfl⟩ := Workspace.exists_of_bare_eq alike
    exact ⟨rfl, Workspace.sound_store _ _ _⟩
  | cons top below =>
    unfold recover
    dsimp only
    exact mergeAll_bare (note_bare (note_bare (warn_bare same _) _ _) _ _) sound _ _

theorem finish_bare (same : r.bare = s.bare) : r.finish.bare = s.finish.bare := by
  obtain ⟨w, rfl, alike⟩ := exists_of_bare_eq same
  obtain ⟨memo, count, rfl⟩ := Workspace.exists_of_bare_eq alike
  unfold finish
  dsimp only
  split
  · have found (name : String) :
        ({ r.workspace with memo := memo, computations := count } : Workspace).find name =
          r.workspace.find name := rfl
    rw [found]
    split <;> rfl
  · rfl

theorem conclude_bare (same : r.bare = s.bare) (sound : r.workspace.Sound) :
    (r.conclude Workspace.apply).bare = (s.conclude Workspace.applyAnew).bare ∧
      (r.conclude Workspace.apply).run.workspace.Sound := by
  have names : r.stack = s.stack := show r.bare.stack = s.bare.stack by rw [same]
  have modes : r.workspace.explains = s.workspace.explains :=
    show r.bare.workspace.explains = s.bare.workspace.explains by rw [same]
  unfold conclude
  rw [← names, ← modes]
  split
  · obtain ⟨same', sound'⟩ := recover_bare same sound
    exact ⟨finish_bare same', by rwa [(run_finish _).1]⟩
  · exact ⟨finish_bare same, by rwa [(run_finish _).1]⟩

theorem evaluate_bare (same : r.bare = s.bare) (sound : r.workspace.Sound)
    (instructions : List Instruction) :
    (r.evaluate Workspace.apply instructions).bare =
        (s.evaluate Workspace.applyAnew instructions).bare ∧
      (r.evaluate Workspace.apply instructions).run.workspace.Sound := by
  obtain ⟨next, sound'⟩ :=
    followAll_bare (r := r.noteStart) (s := s.noteStart) (note_bare same _ _) sound instructions
  unfold evaluate
  rcases Progress.running_or_finished next with ⟨r', s', left, right, same'⟩ |
    ⟨f, g, left, right, same'⟩
  · rw [left] at sound'
    rw [left, right]
    exact conclude_bare same' sound'
  · rw [left] at sound'
    rw [left, right]
    exact ⟨same', sound'⟩

/-! ### Expressions -/

theorem noteTokens_bare (same : r.bare = s.bare) (expression : String) :
    (r.noteTokens expression).bare = (s.noteTokens expression).bare := by
  obtain ⟨w, rfl, alike⟩ := exists_of_bare_eq same
  obtain ⟨memo, count, rfl⟩ := Workspace.exists_of_bare_eq alike
  unfold noteTokens
  dsimp only
  split <;> rfl

theorem defineEmpty_bare (same : r.bare = s.bare) (name : String) :
    (r.defineEmpty name).bare = (s.defineEmpty name).bare := by
  obtain ⟨w, rfl, alike⟩ := exists_of_bare_eq same
  obtain ⟨memo, count, rfl⟩ := Workspace.exists_of_bare_eq alike
  rfl

theorem foldl_defineEmpty_bare (same : r.bare = s.bare) (sound : r.workspace.Sound)
    (names : List String) :
    (names.foldl defineEmpty r).bare = (names.foldl defineEmpty s).bare ∧
      (names.foldl defineEmpty r).workspace.Sound := by
  induction names generalizing r s with
  | nil => exact ⟨same, sound⟩
  | cons name rest ih => exact ih (defineEmpty_bare same name) (Workspace.sound_store _ _ _)

theorem defineMissing_or (same : r.bare = s.bare) (sound : r.workspace.Sound)
    (found : List Token) :
    (∃ e, r.defineMissing found = .error e ∧ s.defineMissing found = .error e) ∨
      ∃ r' s', r.defineMissing found = .ok r' ∧ s.defineMissing found = .ok s' ∧
        r'.bare = s'.bare ∧ r'.workspace.Sound := by
  obtain ⟨w, rfl, alike⟩ := exists_of_bare_eq same
  obtain ⟨memo, count, rfl⟩ := Workspace.exists_of_bare_eq alike
  have undefined : ({ r with workspace := { r.workspace with memo, computations := count } } :
      Run).undefinedNames found = r.undefinedNames found := rfl
  unfold defineMissing
  rw [undefined]
  split
  · exact .inr ⟨_, _, rfl, rfl, same, sound⟩
  · dsimp only
    split
    · obtain ⟨same', sound'⟩ := foldl_defineEmpty_bare (note_bare same _ _) sound _
      exact .inr ⟨_, _, rfl, rfl, same', sound'⟩
    · exact .inl ⟨_, rfl, rfl⟩

theorem instructions_eq_of_bare (same : r.bare = s.bare) (found : List Token) :
    r.instructions found = s.instructions found :=
  show r.bare.instructions found = s.bare.instructions found by rw [same]

theorem evaluateInfix_bare (same : r.bare = s.bare) (sound : r.workspace.Sound)
    (expression : String) :
    (r.evaluateInfix Workspace.apply expression).bare =
        (s.evaluateInfix Workspace.applyAnew expression).bare ∧
      (r.evaluateInfix Workspace.apply expression).run.workspace.Sound := by
  have noted := noteTokens_bare same expression
  rw [← (r.noteTokens_frame expression).1] at sound
  unfold evaluateInfix
  dsimp only
  split
  · exact ⟨congrArg (fun r => Finished.mk r _) (note_bare noted _ _), sound⟩
  rcases defineMissing_or noted sound (tokens expression.toList) with ⟨e, left, right⟩ |
    ⟨r', s', left, right, same', sound'⟩
  · rw [left, right]
    exact ⟨congrArg (fun r => Finished.mk r _) noted, sound⟩
  · rw [left, right]
    dsimp only
    have same'' : r'.noteConversion.bare = s'.noteConversion.bare := note_bare same' _ _
    rw [instructions_eq_of_bare same'']
    split
    · exact ⟨congrArg (fun r => Finished.mk r _) same'', sound'⟩
    · exact evaluate_bare (note_bare same'' _ _) sound' _

end Run

/-! ### Calls -/

namespace Workspace

theorem dropTemporaries_bare {v w : Workspace} (same : v.bare = w.bare) :
    v.dropTemporaries.bare = w.dropTemporaries.bare := by
  obtain ⟨memo, count, rfl⟩ := exists_of_bare_eq same
  unfold dropTemporaries
  dsimp only
  split <;> rfl

/-- An evaluation gives the same result with the memo and without. -/
theorem evaluateBy_bare {v w : Workspace} (same : v.bare = w.bare) (sound : v.Sound)
    (expression : String) :
    (v.evaluateBy apply expression).result = (w.evaluateBy applyAnew expression).result ∧
      (v.evaluateBy apply expression).warnings = (w.evaluateBy applyAnew expression).warnings ∧
      (v.evaluateBy apply expression).workspace.bare =
        (w.evaluateBy applyAnew expression).workspace.bare ∧
      (v.evaluateBy apply expression).workspace.Sound := by
  have modes : v.explains = w.explains := show v.bare.explains = w.bare.explains by rw [same]
  obtain ⟨same', sound'⟩ :=
    Run.evaluateInfix_bare (Run.bare_eq same (Run.start v)) sound expression
  unfold evaluateBy
  rw [modes]
  change ((Run.start v).evaluateInfix apply expression).bare =
    ((Run.start w).evaluateInfix applyAnew expression).bare at same'
  change ((Run.start v).evaluateInfix apply expression).run.workspace.Sound at sound'
  generalize (Run.start v).evaluateInfix apply expression = f at same' sound' ⊢
  generalize (Run.start w).evaluateInfix applyAnew expression = g at same' ⊢
  obtain ⟨r, result⟩ := f
  obtain ⟨s, result'⟩ := g
  obtain ⟨same'', rfl⟩ : r.bare = s.bare ∧ result = result' := by
    simpa [Finished.bare] using same'
  obtain ⟨u, rfl, alike⟩ := Run.exists_of_bare_eq same''
  have dropped := dropTemporaries_bare alike
  have sound'' : r.workspace.dropTemporaries.Sound := Sound.dropTemporaries sound'
  cases result with
  | ok answer => exact ⟨rfl, rfl, dropped, sound''⟩
  | error e =>
    dsimp only
    split
    · exact ⟨rfl, rfl, dropped, sound''⟩
    · exact ⟨rfl, rfl, dropped, sound''⟩

/-- A change of the sets alone: it is decided by the registry and empties the memo. -/
def ChangesRegistry (change : Workspace → Except SetError Workspace) : Prop :=
  ∃ next : Registry → Except SetError Registry, ∀ w, change w = (next w.registry).map w.withRegistry

theorem changesRegistry_addElements (name : String) (elements : List Element) :
    ChangesRegistry (addElements · name elements) := by
  refine ⟨fun registry => (checkName name).map fun _ =>
    registry.insert name (.finite (distinct elements)), fun w => ?_⟩
  unfold addElements
  cases checkName name <;> rfl

theorem changesRegistry_addLiteral (name text : String) :
    ChangesRegistry (addLiteral · name text) := by
  refine ⟨fun registry => checkName name >>= fun _ => (readElements text.toList).map fun elements =>
    registry.insert name (.finite (distinct elements)), fun w => ?_⟩
  unfold addLiteral addElements
  cases checkName name <;> cases readElements text.toList <;> rfl

theorem changesRegistry_addItems (name : String) (items : List String) :
    ChangesRegistry (addItems · name items) := by
  refine ⟨fun registry => checkName name >>= fun _ =>
    (readItems (items.map String.toList)).map fun elements =>
      registry.insert name (.finite (distinct elements)), fun w => ?_⟩
  unfold addItems addElements
  cases checkName name <;> cases readItems (items.map String.toList) <;> rfl

theorem changesRegistry_addSymbolic (name definition : String) (rule : Datum → Option Bool)
    (samples : List Element) : ChangesRegistry (addSymbolic · name definition rule samples) := by
  refine ⟨fun registry => (checkName name).map fun _ =>
    registry.insert name (.symbolic (.ofRule definition rule (distinct samples))), fun w => ?_⟩
  unfold addSymbolic
  cases checkName name <;> rfl

theorem changesRegistry_remove (name : String) : ChangesRegistry (remove · name) := by
  refine ⟨fun registry => if registry.contains name then .ok (registry.erase name)
    else .error (.unknownSet name), fun w => ?_⟩
  unfold remove
  dsimp only
  split <;> rfl

theorem settle_bare {v w : Workspace} (same : v.bare = w.bare) (sound : v.Sound)
    {change : Workspace → Except SetError Workspace} (h : ChangesRegistry change) :
    (v.settle (change v)).1 = (w.settle (change w)).1 ∧
      (v.settle (change v)).2.bare = (w.settle (change w)).2.bare ∧
      (v.settle (change v)).2.Sound := by
  obtain ⟨next, eq⟩ := h
  obtain ⟨memo, count, rfl⟩ := exists_of_bare_eq same
  rw [eq, eq]
  dsimp only
  cases next v.registry with
  | error e => exact ⟨rfl, same, sound⟩
  | ok registry => exact ⟨rfl, rfl, sound_withRegistry _ _⟩

theorem evaluateOperationBy_bare {v w : Workspace} (same : v.bare = w.bare) (sound : v.Sound)
    (op : Operation) (a b : String) :
    (∃ e, v.evaluateOperationBy apply op a b = .error e ∧
        w.evaluateOperationBy applyAnew op a b = .error e) ∨
      ∃ evaluation v' w', v.evaluateOperationBy apply op a b = .ok (evaluation, v') ∧
        w.evaluateOperationBy applyAnew op a b = .ok (evaluation, w') ∧ v'.bare = w'.bare ∧
        v'.Sound := by
  have operands : w.operand = v.operand := show w.bare.operand = v.bare.operand by rw [same]
  have modes : w.explains = v.explains := show w.bare.explains = v.bare.explains by rw [same]
  have applied := sound.apply_or same op a b
  unfold evaluateOperationBy
  rw [operands, modes]
  cases v.operand a with
  | error e => exact .inl ⟨e, rfl, rfl⟩
  | ok left =>
    cases v.operand b with
    | error e => exact .inl ⟨e, rfl, rfl⟩
    | ok right =>
      rcases applied with ⟨e, left, right⟩ | ⟨value, v', w', left, right, same', sound'⟩
      · rw [left, right]
        exact .inl ⟨e, rfl, rfl⟩
      · rw [left, right]
        exact .inr ⟨_, v', w', rfl, rfl, same', sound'⟩

/-- A call has the same reply with the memo and without. -/
theorem call_bare {v w : Workspace} (same : v.bare = w.bare) (sound : v.Sound) (c : Call) :
    (v.call apply c).1 = (w.call applyAnew c).1 ∧
      (v.call apply c).2.bare = (w.call applyAnew c).2.bare ∧ (v.call apply c).2.Sound := by
  cases c with
  | addElements name elements => exact settle_bare same sound (changesRegistry_addElements _ _)
  | addLiteral name text => exact settle_bare same sound (changesRegistry_addLiteral _ _)
  | addItems name items => exact settle_bare same sound (changesRegistry_addItems _ _)
  | addSymbolic name definition rule samples =>
    exact settle_bare same sound (changesRegistry_addSymbolic _ _ _ _)
  | remove name => exact settle_bare same sound (changesRegistry_remove _)
  | setExplains explains =>
    obtain ⟨memo, count, rfl⟩ := exists_of_bare_eq same
    exact ⟨rfl, rfl, sound.setExplains explains⟩
  | operate op a b =>
    unfold call
    dsimp only
    rcases evaluateOperationBy_bare same sound op a b with ⟨e, left, right⟩ |
      ⟨evaluation, v', w', left, right, same', sound'⟩
    · rw [left, right]
      exact ⟨rfl, same, sound⟩
    · rw [left, right]
      exact ⟨rfl, same', sound'⟩
  | evaluate expression =>
    obtain ⟨results, warnings, same', sound'⟩ := evaluateBy_bare same sound expression
    exact ⟨by simp [call, Reply.ofOutcome, results, warnings], same', sound'⟩
  | get name =>
    obtain ⟨memo, count, rfl⟩ := exists_of_bare_eq same
    exact ⟨rfl, same, sound⟩
  | all =>
    obtain ⟨memo, count, rfl⟩ := exists_of_bare_eq same
    exact ⟨rfl, same, sound⟩
  | isMember x name =>
    obtain ⟨memo, count, rfl⟩ := exists_of_bare_eq same
    exact ⟨rfl, same, sound⟩

theorem after_bare {v w : Workspace} (same : v.bare = w.bare) (sound : v.Sound)
    (calls : List Call) :
    (v.after apply calls).bare = (w.after applyAnew calls).bare ∧ (v.after apply calls).Sound := by
  induction calls generalizing v w with
  | nil => exact ⟨same, sound⟩
  | cons c rest ih =>
    obtain ⟨-, same', sound'⟩ := call_bare same sound c
    exact ih same' sound'

theorem sound_of_reaches {v w : Workspace} (h : v.Reaches w) (sound : v.Sound) : w.Sound := by
  obtain ⟨calls, rfl⟩ := h
  exact (after_bare rfl sound calls).2

theorem transcript_eq {v w : Workspace} (same : v.bare = w.bare) (sound : v.Sound)
    (calls : List Call) : v.transcript apply calls = w.transcript applyAnew calls := by
  induction calls generalizing v w with
  | nil => rfl
  | cons c rest ih =>
    obtain ⟨reply, same', sound'⟩ := call_bare same sound c
    simp only [transcript, reply, registry_eq_of_bare same', ih same' sound']

end Workspace

end DiscreteMath.SetAlgebra
