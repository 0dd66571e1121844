import DiscreteMath.Proofs.SetAlgebra.Explaining
import DiscreteMath.Proofs.SetAlgebra.Grammar
import DiscreteMath.Proofs.SetAlgebra.Membership
import DiscreteMath.Proofs.SetAlgebra.PostfixOrder

/-!
# Which expressions are rejected

Whether an expression is malformed shows only in its postfix order. An operation is rejected if too
few operands are at hand, and so is an expression that does not leave one set in the end; an
inclusion ends the evaluation before that. So the expressions of the grammar are answered, and any
other tokens whose postfix order begins like that of one are answered with them.

## Main definitions

* `Term.stacked` — the instructions of terms that are put on the stack one after the other.
* `Conclusive` — instructions that come to an answer.
* `Stuck` — instructions that a number of operands is too few or too many for.
* `Term.Ready` — a term without inclusion, of registered sets.
* `Sensible` — tokens that can be brought into a conclusive order.
-/

namespace DiscreteMath.SetAlgebra

/-! ### Reading instructions as terms -/

namespace Term

/-- The instructions of terms, of which the latest is the first in the list. -/
def stacked : List Term → List Instruction
  | [] => []
  | t :: below => stacked below ++ t.instructions

theorem push_mem_instructions {name : String} (t : Term) :
    .push name ∈ t.instructions ↔ name ∈ t.names := by
  induction t <;> simp_all [instructions, names]

theorem push_mem_stacked {name : String} {stack : List Term} {t : Term} (member : t ∈ stack)
    (named : name ∈ t.names) : .push name ∈ stacked stack := by
  induction stack with
  | nil => cases member
  | cons top below ih =>
    rcases List.mem_cons.mp member with rfl | member
    · exact List.mem_append_right _ (t.push_mem_instructions.mpr named)
    · exact List.mem_append_left _ (ih member)

end Term

/-- The instructions are those of a term without inclusion, or terms without inclusion come first
and the last two are compared. -/
inductive Conclusive : List Instruction → Prop
  | set {t : Term} : t.isSet = true → Conclusive t.instructions
  | inclusion {l r : Term} {below : List Term} (rest : List Instruction) :
      (∀ t ∈ r :: l :: below, t.isSet = true) →
      Conclusive (Term.stacked (r :: l :: below) ++ .apply .subset :: rest)

/-- With so many operands at hand the instructions end without a single one, or begin with an
operation that needs more. -/
inductive Stuck (count : Nat) : List Instruction → Prop
  | ended : count ≠ 1 → Stuck count []
  | complement (rest : List Instruction) : count = 0 → Stuck count (.apply .complement :: rest)
  | binary {op : Operation} (proper : op ≠ .complement) (rest : List Instruction) :
      count < 2 → Stuck count (.apply op :: rest)

/-- Instructions are conclusive, or they get stuck behind some terms. -/
theorem conclusive_or_stuck (rest : List Instruction) (stack : List Term)
    (sets : ∀ t ∈ stack, t.isSet = true) :
    Conclusive (Term.stacked stack ++ rest) ∨
      ∃ (stack' : List Term) (rest' : List Instruction), (∀ t ∈ stack', t.isSet = true) ∧
        Term.stacked stack ++ rest = Term.stacked stack' ++ rest' ∧ Stuck stack'.length rest' := by
  induction rest generalizing stack with
  | nil =>
    rcases stack with _ | ⟨r, _ | ⟨l, below⟩⟩
    · exact .inr ⟨[], [], sets, rfl, .ended (by simp)⟩
    · exact .inl (by simpa [Term.stacked] using .set (sets r (by simp)))
    · exact .inr ⟨_, [], sets, rfl, .ended (by simp)⟩
  | cons i rest ih =>
    cases i with
    | push name =>
      have next := ih (.name name :: stack) (by simpa [Term.isSet] using sets)
      simpa [Term.stacked, Term.instructions] using next
    | apply op =>
      by_cases complement : op = .complement
      · subst complement
        rcases stack with _ | ⟨t, below⟩
        · exact .inr ⟨[], _, sets, rfl, .complement rest rfl⟩
        · have next := ih (.complement t :: below) (by simpa [Term.isSet] using sets)
          simpa [Term.stacked, Term.instructions] using next
      · rcases stack with _ | ⟨r, _ | ⟨l, below⟩⟩
        · exact .inr ⟨[], _, sets, rfl, .binary complement rest (by simp)⟩
        · exact .inr ⟨[r], _, sets, rfl, .binary complement rest (by simp)⟩
        · by_cases subset : op = .subset
          · subst subset
            exact .inl (.inclusion rest sets)
          · have next := ih (.binary op complement l r :: below) (by
              simp only [List.forall_mem_cons] at sets ⊢
              exact ⟨by simp [Term.isSet, subset, sets.1, sets.2.1], sets.2.2⟩)
            simpa [Term.stacked, Term.instructions] using next

/-- A term has no inclusion, or its instructions come to one behind terms without. -/
theorem isSet_or_conclusive (t : Term) (stack : List Term) (sets : ∀ u ∈ stack, u.isSet = true) :
    t.isSet = true ∨ ∀ rest, Conclusive (Term.stacked (t :: stack) ++ rest) := by
  induction t generalizing stack with
  | name letter => exact .inl rfl
  | complement t ih =>
    rcases ih stack sets with set | ends
    · exact .inl set
    · refine .inr fun rest => ?_
      simpa [Term.stacked, Term.instructions] using ends (.apply .complement :: rest)
  | binary op proper l r ihLeft ihRight =>
    rcases ihLeft stack sets with left | ends
    · rcases ihRight (l :: stack) (by simpa [left] using sets) with right | ends
      · by_cases subset : op = .subset
        · subst subset
          refine .inr fun rest => ?_
          have ends : Conclusive (Term.stacked (r :: l :: stack) ++ .apply .subset :: rest) :=
            .inclusion rest (by simpa [left, right] using sets)
          simpa [Term.stacked, Term.instructions] using ends
        · exact .inl (by simp [Term.isSet, subset, left, right])
      · refine .inr fun rest => ?_
        simpa [Term.stacked, Term.instructions] using ends (.apply op :: rest)
    · refine .inr fun rest => ?_
      simpa [Term.stacked, Term.instructions] using ends (r.instructions ++ .apply op :: rest)

theorem conclusive_instructions (t : Term) : Conclusive t.instructions := by
  rcases isSet_or_conclusive t [] (by simp) with set | ends
  · exact .set set
  · simpa [Term.stacked] using ends []

/-! ### The sets of terms -/

theorem combine_eq_set {op : Operation} (proper : op ≠ .subset) (a b : Operand) :
    ∃ set, combine op a b = .set set := by
  unfold combine
  split <;> cases op <;> first | exact ⟨_, rfl⟩ | exact absurd rfl proper

theorem combine_subset_eq (a b : Operand) :
    ∃ verdict, combine .subset a b = .relation a.label b.label verdict := by
  unfold combine
  split <;> exact ⟨_, rfl⟩

variable {registry : Registry}

/-- The term has no inclusion, and its names stand for sets that are not temporary. -/
structure Term.Ready (registry : Registry) (t : Term) : Prop where
  isSet : t.isSet = true
  plain : ∀ name ∈ t.names, isTemporary name = false
  registered : ∀ name ∈ t.names, registry.contains name = true

theorem Term.exists_operand? (whole : registry.contains universeName = true) {t : Term}
    (isSet : t.isSet = true) (registered : ∀ name ∈ t.names, registry.contains name = true) :
    ∃ x, t.operand? registry = some x := by
  induction t with
  | name letter =>
    obtain ⟨set, found⟩ := Option.isSome_iff_exists.mp (registered letter (by simp [names]))
    exact ⟨⟨letter, set⟩, by simp [operand?, found]⟩
  | complement t ih =>
    obtain ⟨x, value⟩ := ih isSet registered
    obtain ⟨set, found⟩ := Option.isSome_iff_exists.mp whole
    have proper : Operation.complement ≠ .subset := by decide
    obtain ⟨set', combined⟩ := combine_eq_set proper x ⟨universeName, set⟩
    exact ⟨⟨set'.enclosed, set'⟩, by simp [operand?, value, found, combined, Value.operand?]⟩
  | binary op proper l r ihLeft ihRight =>
    simp only [Term.isSet, Bool.and_eq_true, bne_iff_ne] at isSet
    obtain ⟨⟨sets, left⟩, right⟩ := isSet
    obtain ⟨x, value⟩ := ihLeft left fun name found => registered name (by simp [names, found])
    obtain ⟨y, value'⟩ := ihRight right fun name found => registered name (by simp [names, found])
    obtain ⟨set, combined⟩ := combine_eq_set sets x y
    exact ⟨⟨set.enclosed, set⟩, by simp [operand?, value, value', combined, Value.operand?]⟩

/-! ### Following the instructions -/

namespace Run

open Workspace (applyAnew)

variable {r : Run}

/-- Following the instructions of terms puts a name on the stack for each. -/
theorem followAll_stacked (whole : registry.contains universeName = true) {stack : List Term}
    (ready : ∀ t ∈ stack, t.Ready registry) (keeping : r.Keeping registry) :
    ∃ s : Run, s.stack.length = stack.length + r.stack.length ∧ r.Leads s ∧ ∀ rest,
      r.followAll applyAnew (Term.stacked stack ++ rest) = s.followAll applyAnew rest := by
  induction stack with
  | nil => exact ⟨r, by simp, ⟨Nat.le_refl _, rfl, fun _ _ => rfl⟩, fun rest => rfl⟩
  | cons t below ih =>
    obtain ⟨top, below⟩ := List.forall_mem_cons.mp ready
    obtain ⟨s, count, leads, run⟩ := ih below
    obtain ⟨x, value⟩ := t.exists_operand? whole top.isSet top.registered
    obtain ⟨s', name, stack, leads', -, -, run'⟩ :=
      followAll_term top.plain value s (keeping.leads leads)
    refine ⟨s', ?_, leads.trans leads', fun rest => ?_⟩
    · simp only [stack, List.length_cons, count]
      omega
    · simp only [Term.stacked, List.append_assoc, run, run']

/-- Instructions that get stuck make the expression malformed. -/
theorem evaluate_stuck (quiet : r.workspace.explains = false) (empty : r.stack = [])
    (whole : r.workspace.registry.contains universeName = true) {stack : List Term}
    (ready : ∀ t ∈ stack, t.Ready r.workspace.registry) {rest : List Instruction}
    (stuck : Stuck stack.length rest) :
    ∃ fault, (r.evaluate applyAnew (Term.stacked stack ++ rest)).result =
      .error (.malformedExpression fault) := by
  obtain ⟨s, count, leads, run⟩ :=
    followAll_stacked whole ready (r := r.noteStart) fun _ _ => rfl
  have quiet : s.workspace.explains = false := leads.explains.trans quiet
  have count : s.stack.length = stack.length := by simpa [noteStart, note, empty] using count
  unfold evaluate
  rw [run]
  have few (op : Operation) (rest : List Instruction)
      (few : s.stack = [] ∨ op ≠ .complement ∧ s.stack.length < 2) : ∃ fault f,
      s.followAll applyAnew (.apply op :: rest) = .finished f ∧
        f.result = .error (.malformedExpression fault) := by
    obtain ⟨fault, failed⟩ := follow_of_few op few
    exact ⟨fault, _, followAll_cons_of_finished failed rest, rfl⟩
  cases stuck with
  | ended several =>
    refine ⟨.notOneValue, ?_⟩
    simp only [followAll, conclude_of_quiet quiet]
    exact result_finish_of_several (count ▸ several)
  | complement rest none =>
    have empty : s.stack = [] := List.eq_nil_of_length_eq_zero (count.trans none)
    obtain ⟨fault, f, failed, result⟩ := few .complement rest (.inl empty)
    exact ⟨fault, by rw [failed]; exact result⟩
  | @binary op proper rest short =>
    obtain ⟨fault, f, failed, result⟩ := few op rest (.inr ⟨proper, count ▸ short⟩)
    exact ⟨fault, by rw [failed]; exact result⟩

/-- Conclusive instructions are answered. -/
theorem evaluate_conclusive (quiet : r.workspace.explains = false) (empty : r.stack = [])
    (whole : r.workspace.registry.contains universeName = true)
    {instructions : List Instruction} (conclusive : Conclusive instructions)
    (plain : ∀ name, .push name ∈ instructions → isTemporary name = false)
    (registered : ∀ name, .push name ∈ instructions →
      r.workspace.registry.contains name = true) :
    ∃ answer, (r.evaluate applyAnew instructions).result = .ok answer := by
  cases conclusive with
  | @set t isSet =>
    obtain ⟨x, value⟩ := t.exists_operand? whole isSet fun name named =>
      registered name (t.push_mem_instructions.mpr named)
    obtain ⟨s, top, stack, leads, -, operand, run⟩ :=
      followAll_term (fun name named => plain name (t.push_mem_instructions.mpr named)) value
        r.noteStart fun _ _ => rfl
    have run := run []
    rw [List.append_nil] at run
    have single : s.stack = [top] := by rw [stack]; exact congrArg _ empty
    have quiet : s.workspace.explains = false := leads.explains.trans quiet
    refine ⟨.ofSet x.set, ?_⟩
    unfold evaluate
    simp only [run, followAll, conclude_of_quiet quiet]
    exact (finish_of_operand single operand).2.1
  | @inclusion left right below rest sets =>
    have named {t : Term} (member : t ∈ right :: left :: below) {name : String}
        (named : name ∈ t.names) :
        .push name ∈ Term.stacked (right :: left :: below) ++ .apply .subset :: rest :=
      List.mem_append_left _ (Term.push_mem_stacked member named)
    have ready : ∀ t ∈ right :: left :: below, t.Ready r.workspace.registry := fun t member =>
      ⟨sets t member, fun name h => plain name (named member h),
        fun name h => registered name (named member h)⟩
    obtain ⟨first, second, others⟩ := by simpa only [List.forall_mem_cons] using ready
    obtain ⟨s, -, leads, run⟩ := followAll_stacked whole others (r := r.noteStart) fun _ _ => rfl
    obtain ⟨x, valueLeft⟩ := left.exists_operand? whole second.isSet second.registered
    obtain ⟨y, valueRight⟩ := right.exists_operand? whole first.isSet first.registered
    obtain ⟨verdict, combined⟩ := combine_subset_eq x y
    have names : ∀ name ∈ left.names ++ right.names, isTemporary name = false := by
      intro name member
      exact (List.mem_append.mp member).elim (second.plain name) (first.plain name)
    obtain ⟨last, ended⟩ := followAll_inclusion names valueLeft valueRight combined
      (r := s) (fun name plain => leads.sets name (.inl plain)) rest
    refine ⟨.relation x.label y.label verdict, ?_⟩
    unfold evaluate
    simp only [Term.stacked, List.append_assoc] at ended ⊢
    simp only [run, ended]
    rfl

end Run

/-! ### Expressions -/

/-- The tokens can be brought into an order that comes to an answer. -/
def Sensible (found : List Token) : Prop :=
  ∃ instructions, toPostfix found = .ok instructions ∧ Conclusive instructions

/-- The expressions of the grammar are sensible. -/
theorem Phrase.Derives.sensible {found : List Token} (derives : Phrase.Derives .expression found) :
    Sensible found := by
  obtain ⟨t, written⟩ := (derives_iff_written found).mp derives
  exact ⟨t.instructions, toPostfix_written written, conclusive_instructions t⟩

namespace Workspace

variable {w : Workspace} {text : String}

/-- Without explanations, what an evaluation comes to is told by the order of the tokens. -/
theorem evaluate_result_registered (sound : w.Sound) (quiet : w.explains = false)
    (some : tokens text.toList ≠ []) (registered : w.Registered text) :
    ∃ r : Run, r.workspace = w ∧ r.stack = [] ∧
      (w.evaluate text).result = ((toPostfix (tokens text.toList)).bind fun instructions =>
        (r.evaluate applyAnew instructions).result).map (⟨·, [], none⟩) := by
  obtain ⟨r, same, stack, -, evaluated⟩ :=
    Run.evaluateInfix_registered applyAnew quiet some registered
  rw [evaluate_result sound quiet, evaluated]
  cases toPostfix (tokens text.toList) with
  | error e => exact ⟨r, same, stack, rfl⟩
  | ok instructions => exact ⟨r.notePostfix instructions, same, stack, rfl⟩

/-- The names that the instructions put on the stack are those of the expression. -/
theorem Registered.pushed (registered : w.Registered text) {instructions : List Instruction}
    (ordered : toPostfix (tokens text.toList) = .ok instructions) {name : String}
    (pushed : .push name ∈ instructions) :
    isTemporary name = false ∧ w.registry.contains name = true := by
  have member := token_mem_of_toPostfix ordered _ pushed
  exact ⟨isTemporary_of_mem_tokens member, registered name member⟩

theorem evaluate_of_sensible (sound : w.Sound) (quiet : w.explains = false)
    (whole : w.registry.contains universeName = true) (some : tokens text.toList ≠ [])
    (registered : w.Registered text) (sensible : Sensible (tokens text.toList)) :
    ∃ answer, (w.evaluate text).result = .ok ⟨answer, [], none⟩ := by
  obtain ⟨r, rfl, empty, result⟩ := evaluate_result_registered sound quiet some registered
  obtain ⟨instructions, ordered, conclusive⟩ := sensible
  obtain ⟨answer, answered⟩ := r.evaluate_conclusive quiet empty whole conclusive
    (fun _ pushed => (registered.pushed ordered pushed).1)
    (fun _ pushed => (registered.pushed ordered pushed).2)
  exact ⟨answer, by simp only [result, ordered, Except.bind, answered, Except.map]⟩

theorem evaluate_of_not_sensible (sound : w.Sound) (quiet : w.explains = false)
    (whole : w.registry.contains universeName = true) (some : tokens text.toList ≠ [])
    (registered : w.Registered text) (senseless : ¬ Sensible (tokens text.toList)) :
    ∃ fault, (w.evaluate text).result = .error (.malformedExpression fault) := by
  obtain ⟨r, rfl, empty, result⟩ := evaluate_result_registered sound quiet some registered
  rcases toPostfix_eq (tokens text.toList) with ⟨instructions, ordered, -⟩ | ⟨ordered, -⟩
  · obtain conclusive | ⟨stack, rest, sets, rfl, stuck⟩ :=
      conclusive_or_stuck instructions [] (by simp)
    · exact absurd ⟨instructions, ordered, conclusive⟩ senseless
    · have ready : ∀ t ∈ stack, t.Ready r.workspace.registry := fun t member =>
        have named {name : String} (named : name ∈ t.names) := registered.pushed ordered
          (List.mem_append_left rest (Term.push_mem_stacked member named))
        ⟨sets t member, fun _ h => (named h).1, fun _ h => (named h).2⟩
      obtain ⟨fault, failed⟩ := r.evaluate_stuck quiet empty whole ready stuck
      exact ⟨fault, by simp only [result, ordered, Except.bind, failed, Except.map]⟩
  · exact ⟨.unbalancedParentheses, by simp only [result, ordered, Except.bind, Except.map]⟩

/-- Without explanations, and with the universe and all names of the expression registered, an
expression is rejected as malformed unless its tokens can be brought into an order that comes to an
answer, as those of the grammar can. -/
theorem evaluate_rejects {start : Registry} (reached : (ofRegistry start).Reaches w)
    (quiet : w.explains = false) (whole : w.registry.contains universeName = true)
    (some : tokens text.toList ≠ []) (registered : w.Registered text) :
    (¬ Sensible (tokens text.toList) →
        ∃ fault, (w.evaluate text).result = .error (.malformedExpression fault)) ∧
      (Sensible (tokens text.toList) →
        ∃ answer, (w.evaluate text).result = .ok ⟨answer, [], none⟩) ∧
      (Phrase.Derives .expression (tokens text.toList) → Sensible (tokens text.toList)) :=
  have sound := sound_of_reaches reached (sound_of_memo_nil rfl)
  ⟨evaluate_of_not_sensible sound quiet whole some registered,
    evaluate_of_sensible sound quiet whole some registered, Phrase.Derives.sensible⟩

theorem tokens_behind : tokens "N Z ∪".toList = [.name "N", .name "Z", .operation .union] := by
  cbv

/-- The two names and the union behind them are the postfix order of a term. -/
theorem sensible_behind : Sensible (tokens "N Z ∪".toList) := by
  rw [tokens_behind]
  exact ⟨_, rfl, .set (t := .binary .union (by decide) (.name "N") (.name "Z")) rfl⟩

/-- A parenthesis that stays open is rejected; an operation behind both of its operands is not. -/
theorem evaluate_rejects_unclosed :
    (∃ fault, (standard.evaluate "(N ∪ Z").result = .error (.malformedExpression fault)) ∧
      ∃ answer, (standard.evaluate "N Z ∪").result = .ok ⟨answer, [], none⟩ := by
  have reached : (ofRegistry .standard).Reaches standard := ⟨[], rfl⟩
  have unclosed : tokens "(N ∪ Z".toList =
      [.opening, .name "N", .operation .union, .name "Z"] := by cbv
  have registered : standard.registry.contains "N" = true ∧
      standard.registry.contains "Z" = true := by decide
  refine ⟨(evaluate_rejects reached rfl (by decide) (by rw [unclosed]; simp) ?_).1 ?_,
    (evaluate_rejects reached rfl (by decide) (by rw [tokens_behind]; simp) ?_).2.1
      sensible_behind⟩
  · rw [Registered, unclosed]
    simpa using registered
  · rintro ⟨instructions, ordered, -⟩
    rw [unclosed] at ordered
    cases ordered
  · rw [Registered, tokens_behind]
    simpa using registered

/-- An operation behind both of its operands and a set behind an inclusion are no expressions of
the grammar, and yet they are answered. -/
theorem evaluate_answers_outside_grammar :
    standard.explains = false ∧ standard.registry.contains universeName = true ∧
      ∀ text ∈ ["N Z ∪", "(N ⊆ Z) Q"], tokens text.toList ≠ [] ∧ standard.Registered text ∧
        ¬ Phrase.Derives .expression (tokens text.toList) ∧
        ∃ answer, (standard.evaluate text).result = .ok ⟨answer, [], none⟩ := by
  have sound : standard.Sound := sound_of_memo_nil rfl
  have whole : standard.registry.contains universeName = true := by decide
  have registered : standard.registry.contains "N" = true ∧
      standard.registry.contains "Z" = true ∧ standard.registry.contains "Q" = true := by decide
  have after : tokens "(N ⊆ Z) Q".toList = [.opening, .name "N", .operation .subset, .name "Z",
      .closing, .name "Q"] := by cbv
  have sensible : Sensible (tokens "(N ⊆ Z) Q".toList) := by
    rw [after]
    have conclusive : Conclusive (Term.stacked [.name "Z", .name "N"] ++
        .apply .subset :: [.push "Q"]) := .inclusion _ (by simp [Term.isSet])
    exact ⟨_, rfl, conclusive⟩
  -- What is left to show of a text, once its tokens are known and sensible.
  have answered {text : String} {found : List Token} (cut : tokens text.toList = found)
      (some : found ≠ []) (known : ∀ name, .name name ∈ found →
        standard.registry.contains name = true) (misplaced : inPlace true found = false)
      (sensible : Sensible (tokens text.toList)) :
      tokens text.toList ≠ [] ∧ standard.Registered text ∧
        ¬ Phrase.Derives .expression (tokens text.toList) ∧
        ∃ answer, (standard.evaluate text).result = .ok ⟨answer, [], none⟩ := by
    subst cut
    refine ⟨some, known, fun derives => ?_, ?_⟩
    · cases derives.inPlace.symm.trans misplaced
    · exact evaluate_of_sensible sound rfl whole some known sensible
  refine ⟨rfl, whole, ?_⟩
  simp only [List.forall_mem_cons]
  exact ⟨answered tokens_behind (by simp) (by simpa using registered.imp_right And.left) rfl
      sensible_behind,
    answered after (by simp) (by simpa using registered) rfl sensible, by simp⟩

end Workspace

end DiscreteMath.SetAlgebra
