import DiscreteMath.Proofs.SetAlgebra.Lookup
import DiscreteMath.Proofs.SetAlgebra.Memo

/-!
# Operations are not computed twice

An operation that has been carried out is taken from the memo from then on, until a call changes a
set. Together with the agreement of sessions with and without the memo this says all there is to
know about it.

## Main definitions

* `Workspace.Extends` — the same sets, and everything in the memo is still there.
* `Workspace.Changes` — a call stores or removes a set, be it a temporary one.
* `Workspace.Undisturbed` — a sequence of calls without such a change.
-/

namespace DiscreteMath.SetAlgebra

namespace Workspace

/-- The second workspace has the sets of the first, and remembers what the first remembers. -/
structure Extends (v w : Workspace) : Prop where
  registry : w.registry = v.registry
  memo : ∀ key value, v.memo.lookup key = some value → w.memo.lookup key = some value

namespace Extends

variable {u v w : Workspace}

theorem refl (w : Workspace) : w.Extends w := ⟨rfl, fun _ _ found => found⟩

theorem trans (first : u.Extends v) (second : v.Extends w) : u.Extends w :=
  ⟨second.registry.trans first.registry, fun key value found =>
    second.memo key value (first.memo key value found)⟩

theorem setExplains (w : Workspace) (explains : Bool) : w.Extends (w.setExplains explains) :=
  ⟨rfl, fun _ _ found => found⟩

theorem apply {op : Operation} {a b : String} {value : Value}
    (applied : v.apply op a b = .ok (value, w)) : v.Extends w := by
  cases computed : v.compute op a b with
  | error e => simp [apply_eq, computed, Except.map] at applied
  | ok anew =>
    simp only [apply_eq, computed, Except.map] at applied
    split at applied
    · cases applied
      exact ⟨rfl, fun _ _ found => found⟩
    · split at applied
      · cases applied
        exact refl v
      next absent =>
        cases applied
        refine ⟨rfl, fun key known found => ?_⟩
        have differs : (key == (op, a, b)) = false := by
          refine beq_false_of_ne fun same => ?_
          rw [same, absent] at found
          cases found
        simpa [List.lookup_cons, differs] using found

theorem evaluateOperation {op : Operation} {a b : String} {evaluation : Evaluation}
    (evaluated : v.evaluateOperation op a b = .ok (evaluation, w)) : v.Extends w := by
  unfold Workspace.evaluateOperation evaluateOperationBy at evaluated
  cases left : v.operand a with
  | error e => simp [left, bind, Except.bind] at evaluated
  | ok x =>
    cases right : v.operand b with
    | error e => simp [left, right, bind, Except.bind] at evaluated
    | ok y =>
      cases applied : v.apply op a b with
      | error e => simp [left, right, applied, bind, Except.bind] at evaluated
      | ok found =>
        obtain ⟨value, next⟩ := found
        simp only [left, right, applied, bind, Except.bind, pure, Except.pure] at evaluated
        cases evaluated
        exact apply applied

end Extends

/-- The call stores or removes a set. An evaluation does so when it stores temporary sets, or
registers sets that were missing, or removes temporary sets. -/
def Changes (w : Workspace) : Call → Prop
  | .addElements name elements => (w.addElements name elements).isOk
  | .addLiteral name text => (w.addLiteral name text).isOk
  | .addItems name items => (w.addItems name items).isOk
  | .addSymbolic name definition rule samples => (w.addSymbolic name definition rule samples).isOk
  | .remove name => (w.remove name).isOk
  | .evaluate expression =>
    let run := ((Run.start w).evaluateInfix apply expression).run
    run.temporaries ≠ 0 ∨ run.workspace.registry ≠ w.registry ∨ w.registry.hasTemporaries
  | .setExplains _ | .operate .. | .get _ | .all | .isMember .. => False

def Undisturbed (w : Workspace) : List Call → Prop
  | [] => True
  | c :: rest => ¬ w.Changes c ∧ (w.call apply c).2.Undisturbed rest

/-- What an evaluation leaves of the memo: everything, unless it has stored a set. -/
theorem keeps_memo (w : Workspace) (expression : String) :
    Keeps apply w expression fun v n =>
      (n ≠ 0 ∨ ∃ name, w.registry.contains name = false ∧ v.registry.contains name = true) ∨
        w.Extends v where
  execution := by
    rintro v n op a b value next (stored | kept) applied
    · left
      rwa [(Extends.apply applied).registry]
    · exact .inr (kept.trans (Extends.apply applied))
  temporary _ _ := .inl (.inl (Nat.succ_ne_zero _))
  nothing _ := .inl (.inl (Nat.succ_ne_zero _))
  whole := by
    rintro s operand ((stored | ⟨name, absent, present⟩) | kept) ⟨-, -, missing, -, -⟩
    · exact .inl (.inl stored)
    · refine .inl (.inr ⟨name, absent, ?_⟩)
      simp [store, withRegistry, Registry.contains_insert, present]
    · rw [kept.registry] at missing
      exact .inl (.inr ⟨_, missing, by simp [store, withRegistry, Registry.contains_insert]⟩)
  missing _ _ _ absent :=
    .inl (.inr ⟨_, absent, by simp [store, withRegistry, Registry.contains_insert]⟩)

theorem Extends.evaluate {w : Workspace} {expression : String}
    (unchanged : ¬ w.Changes (.evaluate expression)) :
    w.Extends (w.evaluateBy Workspace.apply expression).workspace := by
  simp only [Changes, not_or, ne_eq, Classical.not_not, Bool.not_eq_true] at unchanged
  obtain ⟨few, same, clean⟩ := unchanged
  have kept := (keeps_memo w expression).evaluateInfix (.inr (Extends.refl w))
  rw [evaluateBy_workspace, dropTemporaries, same, clean]
  rcases kept with (stored | ⟨name, absent, present⟩) | kept
  · exact absurd few stored
  · rw [same, absent] at present
    cases present
  · exact kept

theorem Extends.settle {w : Workspace} {change : Except SetError Workspace}
    (failed : ¬ change.isOk = true) : w.Extends (w.settle change).2 := by
  cases change with
  | ok next => exact absurd rfl failed
  | error e => exact refl w

/-- A call that changes no set keeps everything in the memo. -/
theorem Extends.call {w : Workspace} {c : Call} (unchanged : ¬ w.Changes c) :
    w.Extends (w.call Workspace.apply c).2 := by
  cases c with
  | addElements | addLiteral | addItems | addSymbolic | remove => exact settle unchanged
  | setExplains explains => exact setExplains w explains
  | operate op a b =>
    unfold Workspace.call
    dsimp only
    split
    next evaluated => exact evaluateOperation evaluated
    · exact refl w
  | evaluate expression => exact evaluate unchanged
  | get | all | isMember => exact refl w

theorem Extends.after {w : Workspace} {calls : List Call} (undisturbed : w.Undisturbed calls) :
    w.Extends (w.after Workspace.apply calls) := by
  induction calls generalizing w with
  | nil => exact refl w
  | cons c rest ih => exact (call undisturbed.1).trans (ih undisturbed.2)

theorem compute_eq_of_registry {v w : Workspace} (same : v.registry = w.registry) :
    v.compute = w.compute := by
  funext op a b
  simp only [compute, operand, find, label, same]

/-- Without explanations the evaluation of an operation is what carrying it out gives. -/
theorem evaluateOperation_of_quiet {w : Workspace} (quiet : w.explains = false) (op : Operation)
    (a b : String) :
    w.evaluateOperation op a b =
      (w.apply op a b).map fun (value, next) => (⟨.ofValue value, [], none⟩, next) := by
  unfold evaluateOperation evaluateOperationBy apply
  cases w.operand a with
  | error e => rfl
  | ok left =>
    cases w.operand b with
    | error e => rfl
    | ok right =>
      simp only [bind, Except.bind, quiet]
      cases w.memo.lookup (op, a, b) <;> rfl

/-- Without explanations an operation that is carried out is in the memo afterwards. -/
theorem lookup_of_evaluateOperation {v w : Workspace} {op : Operation} {a b : String}
    {evaluation : Evaluation} (quiet : v.explains = false) (sound : v.Sound)
    (evaluated : v.evaluateOperation op a b = .ok (evaluation, w)) :
    ∃ value, v.compute op a b = .ok value ∧ evaluation = ⟨.ofValue value, [], none⟩ ∧
      w.memo.lookup (op, a, b) = some value := by
  rw [evaluateOperation_of_quiet quiet] at evaluated
  cases computed : v.compute op a b with
  | error e => simp [apply_eq, computed, Except.map] at evaluated
  | ok value =>
    refine ⟨value, rfl, ?_⟩
    cases found : v.memo.lookup (op, a, b) with
    | none =>
      simp only [apply_eq, computed, found, quiet, Except.map] at evaluated
      cases evaluated
      exact ⟨rfl, by simp⟩
    | some known =>
      have agree := sound op a b known found
      rw [computed] at agree
      cases agree
      simp only [apply_eq, computed, found, quiet, Except.map] at evaluated
      cases evaluated
      exact ⟨rfl, found⟩

/-- An operation that the memo has is replied to from the memo. -/
theorem call_operate_of_lookup {w : Workspace} {op : Operation} {a b : String} {value : Value}
    (quiet : w.explains = false) (computed : w.compute op a b = .ok value)
    (known : w.memo.lookup (op, a, b) = some value) :
    w.call apply (.operate op a b) = (.evaluation ⟨.ofValue value, [], none⟩ [], w) := by
  have evaluated := evaluateOperation_of_quiet quiet op a b
  simp only [apply_eq, computed, known, quiet, Except.map] at evaluated
  have evaluated' : w.evaluateOperationBy apply op a b =
      .ok (⟨.ofValue value, [], none⟩, w) := evaluated
  simp only [call, evaluated']

/-- The memo is invisible but for the count: whatever the calls, a session with the memo shows
what a session without shows, and an operation that succeeded once is not computed again as long as
no set changes. -/
theorem memo_invisible (registry : Registry) (calls : List Call) :
    (ofRegistry registry).transcript apply calls =
        (ofRegistry registry).transcript applyAnew calls ∧
      ∀ op a b evaluation next between,
        ((ofRegistry registry).after apply calls).explains = false →
        ((ofRegistry registry).after apply calls).evaluateOperation op a b =
          .ok (evaluation, next) →
        next.Undisturbed between → (next.after apply between).explains = false →
        (next.after apply between).call apply (.operate op a b) =
          (.evaluation evaluation [], next.after apply between) := by
  have start : (ofRegistry registry).Sound := sound_of_memo_nil rfl
  refine ⟨transcript_eq rfl start calls, ?_⟩
  intro op a b evaluation next between quiet evaluated undisturbed quiet'
  have sound := sound_of_reaches ⟨calls, rfl⟩ start
  obtain ⟨value, computed, rfl, known⟩ := lookup_of_evaluateOperation quiet sound evaluated
  have kept := Extends.after undisturbed
  have same := kept.registry.trans (Extends.evaluateOperation evaluated).registry
  refine call_operate_of_lookup quiet' ?_ (kept.memo _ _ known)
  rw [← computed, compute_eq_of_registry same]

/-- The union of `N` and `Z` is asked for again after another operation and a removal that fails. -/
theorem memo_invisible_union :
    ∃ evaluation next,
      Workspace.standard.evaluateOperation .union "N" "Z" = .ok (evaluation, next) ∧
        (next.after apply [.operate .intersection "N" "Z", .remove "X"]).call apply
            (.operate .union "N" "Z") =
          (.evaluation evaluation [],
            next.after apply [.operate .intersection "N" "Z", .remove "X"]) := by
  refine ⟨_, _, rfl, ?_⟩
  refine (memo_invisible .standard []).2 .union "N" "Z" _ _ _ rfl rfl ⟨id, ?_, trivial⟩ rfl
  simp only [Changes]
  decide

end Workspace

end DiscreteMath.SetAlgebra
