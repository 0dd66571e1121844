import DiscreteMath.Proofs.Result
import DiscreteMath.Proofs.SetAlgebra.ElementEquality
import DiscreteMath.Proofs.SetAlgebra.Entries
import DiscreteMath.Proofs.SetAlgebra.Recall

/-!
# Sets without repetitions

Elements enter a registry without repetitions, and no operation brings any in: most of them filter
their operands, and the others take out what would be there twice. So at no time does a registry
hold a name twice or a set an element twice, and no answer does.

## Main definitions

* `Unrepeated` — no two elements of a list are equal.
* `Registry.Tidy` — no name stands for two sets, and no set repeats an element or a sample.
-/

namespace DiscreteMath.SetAlgebra

def Unrepeated (elements : List Element) : Prop := elements.Pairwise fun x y => (x == y) = false

instance (elements : List Element) : Decidable (Unrepeated elements) :=
  inferInstanceAs (Decidable (elements.Pairwise _))

theorem holds_eq_false {elements : List Element} {x : Element} :
    holds elements x = false ↔ ∀ y ∈ elements, (y == x) = false := by
  simp [holds]

theorem holds_without_of_mem {elements others : List Element} {x : Element}
    (member : x ∈ without elements others) : holds others x = false := by
  simpa [without] using (List.mem_filter.mp member).2

theorem unrepeated_nil : Unrepeated [] := .nil

theorem unrepeated_singleton (x : Element) : Unrepeated [x] := List.pairwise_singleton _ x

theorem unrepeated_distinctFrom (seen elements : List Element) :
    Unrepeated (distinctFrom seen elements) ∧
      ∀ x ∈ distinctFrom seen elements, holds seen x = false := by
  induction elements generalizing seen with
  | nil => exact ⟨.nil, nofun⟩
  | cons y rest ih =>
    simp only [distinctFrom]
    split
    · exact ih seen
    next fresh =>
      obtain ⟨unrepeated, apart⟩ := ih (y :: seen)
      simp only [holds_cons, Bool.or_eq_false_iff] at apart
      refine ⟨.cons (fun x member => (apart x member).1) unrepeated, fun x member => ?_⟩
      rcases List.mem_cons.mp member with rfl | member
      · exact eq_false_of_ne_true fresh
      · exact (apart x member).2

theorem unrepeated_distinct (elements : List Element) : Unrepeated (distinct elements) :=
  (unrepeated_distinctFrom [] elements).1

theorem distinctFrom_of_unrepeated {seen elements : List Element} (unrepeated : Unrepeated elements)
    (apart : ∀ x ∈ elements, holds seen x = false) : distinctFrom seen elements = elements := by
  induction elements generalizing seen with
  | nil => rfl
  | cons y rest ih =>
    obtain ⟨first, others⟩ := List.pairwise_cons.mp unrepeated
    obtain ⟨here, later⟩ := List.forall_mem_cons.mp apart
    rw [distinctFrom, if_neg (by simp [here])]
    refine congrArg (y :: ·) (ih others fun x member => ?_)
    rw [holds_cons, first x member, later x member]
    rfl

namespace Unrepeated

variable {xs ys : List Element}

theorem filter (h : Unrepeated xs) (p : Element → Bool) : Unrepeated (xs.filter p) :=
  List.Pairwise.filter p h

theorem distinct_eq (h : Unrepeated xs) : distinct xs = xs :=
  distinctFrom_of_unrepeated h fun _ _ => rfl

theorem append (hx : Unrepeated xs) (hy : Unrepeated ys)
    (apart : ∀ y ∈ ys, holds xs y = false) : Unrepeated (xs ++ ys) :=
  List.pairwise_append.mpr ⟨hx, hy, fun x left y right => holds_eq_false.mp (apart y right) x left⟩

end Unrepeated

/-! ### Operations -/

def StoredSet.Unrepeated : StoredSet → Prop
  | finite elements => SetAlgebra.Unrepeated elements
  | symbolic set => SetAlgebra.Unrepeated set.samples

theorem Enumerated.unrepeated_combine {op : Operation} {a b : String} {xs ys : List Element}
    (hx : Unrepeated xs) (hy : Unrepeated ys) {set : StoredSet}
    (value : Enumerated.combine op a xs b ys = .set set) : set.Unrepeated := by
  cases op with
  | union =>
    cases value
    exact hx.append (hy.filter _) fun y => holds_without_of_mem
  | intersection =>
    cases value
    exact hx.filter _
  | difference =>
    cases value
    exact hx.filter _
  | symmetricDifference =>
    cases value
    refine Unrepeated.append (hx.filter _) (hy.filter _) fun y member => ?_
    have apart := holds_eq_false.mp (holds_without_of_mem member)
    exact holds_eq_false.mpr fun x inside => apart x (List.mem_of_mem_filter inside)
  | complement =>
    cases value
    exact hy.filter _
  | subset => cases value

namespace Symbolic

variable {a b : Operand}

theorem unrepeated_union : Unrepeated (union a b).samples := by
  unfold union
  split
  · exact .nil
  · exact unrepeated_distinct _

theorem unrepeated_intersection (ha : a.set.Unrepeated) (hb : b.set.Unrepeated) :
    (intersection a b).Unrepeated := by
  obtain ⟨_, x⟩ := a
  obtain ⟨_, y⟩ := b
  cases x with
  | finite => exact Unrepeated.filter ha _
  | symbolic =>
    cases y with
    | finite => exact Unrepeated.filter hb _
    | symbolic =>
      dsimp only [intersection, StoredSet.Unrepeated]
      split
      · exact unrepeated_singleton _
      · exact unrepeated_distinct _

theorem unrepeated_difference (ha : a.set.Unrepeated) : (difference a b).Unrepeated := by
  obtain ⟨_, x⟩ := a
  cases x with
  | finite => exact Unrepeated.filter ha _
  | symbolic => exact Unrepeated.filter ha _

theorem unrepeated_complement (hb : b.set.Unrepeated) : (complement a b).Unrepeated := by
  unfold complement
  split
  · exact unrepeated_nil
  · exact unrepeated_difference hb

theorem unrepeated_combine {op : Operation} (ha : a.set.Unrepeated) (hb : b.set.Unrepeated)
    {set : StoredSet} (value : Symbolic.combine op a b = .set set) : set.Unrepeated := by
  cases op with
  | union =>
    cases value
    exact unrepeated_union
  | intersection =>
    cases value
    exact unrepeated_intersection ha hb
  | difference =>
    cases value
    exact unrepeated_difference ha
  | symmetricDifference =>
    cases value
    exact unrepeated_distinct _
  | complement =>
    cases value
    exact unrepeated_complement hb
  | subset => cases value

end Symbolic

/-- An operation on sets without repetitions gives one. -/
theorem unrepeated_combine {op : Operation} {a b : Operand} (ha : a.set.Unrepeated)
    (hb : b.set.Unrepeated) {set : StoredSet} (value : combine op a b = .set set) :
    set.Unrepeated := by
  unfold combine at value
  split at value
  next left right =>
    rw [left] at ha
    rw [right] at hb
    exact Enumerated.unrepeated_combine ha hb value
  next => exact Symbolic.unrepeated_combine ha hb value

/-! ### Registries -/

namespace Registry

/-- No name stands for two sets, and no set repeats an element or a sample. -/
structure Tidy (registry : Registry) : Prop where
  names : registry.names.Nodup
  finite : ∀ entry ∈ registry.finite, Unrepeated entry.2
  symbolic : ∀ entry ∈ registry.symbolic, Unrepeated entry.2.samples

variable {registry : Registry} {name : String}

theorem tidy_empty : empty.Tidy := ⟨.nil, nofun, nofun⟩

theorem tidy_standard : standard.Tidy := ⟨by decide, nofun, by decide⟩

theorem Tidy.get? (tidy : registry.Tidy) {set : StoredSet} (found : registry.get? name = some set) :
    set.Unrepeated := by
  unfold Registry.get? at found
  split at found
  next elements held =>
    cases found
    exact tidy.finite _ (Named.mem_of_get? held)
  next =>
    obtain ⟨set, held, rfl⟩ := Option.map_eq_some_iff.mp found
    exact tidy.symbolic _ (Named.mem_of_get? held)

/-- Taking sets out. -/
theorem Tidy.sublist {other : Registry} (tidy : registry.Tidy)
    (finite : other.finite.Sublist registry.finite)
    (symbolic : other.symbolic.Sublist registry.symbolic) : other.Tidy where
  names := tidy.names.sublist ((finite.map _).append (symbolic.map _))
  finite entry member := tidy.finite entry (finite.subset member)
  symbolic entry member := tidy.symbolic entry (symbolic.subset member)

theorem Tidy.erase (tidy : registry.Tidy) (name : String) : (registry.erase name).Tidy :=
  tidy.sublist List.filter_sublist List.filter_sublist

theorem Tidy.withoutTemporaries (tidy : registry.Tidy) : registry.withoutTemporaries.Tidy :=
  tidy.sublist List.filter_sublist List.filter_sublist

theorem Tidy.insert (tidy : registry.Tidy) (set : StoredSet) (h : set.Unrepeated) :
    (registry.insert name set).Tidy := by
  obtain ⟨names, finite, symbolic⟩ := tidy
  obtain ⟨first, second, apart⟩ := List.nodup_append.mp names
  cases set with
  | finite elements =>
    refine ⟨?_, fun entry member => ?_, fun entry member => ?_⟩
    · refine List.nodup_append.mpr ⟨Named.nodup_put first, ?_, fun m left n right => ?_⟩
      · exact second.sublist (List.filter_sublist.map _)
      · obtain ⟨differs, right⟩ := Named.mem_names_erase.mp right
        rcases Named.mem_names_put.mp left with rfl | left
        · exact differs.symm
        · exact apart m left n right
    · rcases Named.mem_put member with rfl | member
      · exact h
      · exact finite entry member
    · exact symbolic entry (List.mem_of_mem_filter member)
  | symbolic set =>
    refine ⟨?_, fun entry member => ?_, fun entry member => ?_⟩
    · refine List.nodup_append.mpr ⟨?_, Named.nodup_put second, fun m left n right => ?_⟩
      · exact first.sublist (List.filter_sublist.map _)
      · obtain ⟨differs, left⟩ := Named.mem_names_erase.mp left
        rcases Named.mem_names_put.mp right with rfl | right
        · exact differs
        · exact apart m left n right
    · exact finite entry (List.mem_of_mem_filter member)
    · rcases Named.mem_put member with rfl | member
      · exact h
      · exact symbolic entry member

end Registry

/-! ### Evaluations -/

def Answer.Unrepeated : Answer → Prop
  | finite elements => SetAlgebra.Unrepeated elements
  | symbolic _ _ samples => SetAlgebra.Unrepeated samples
  | relation .. => True

theorem StoredSet.Unrepeated.answer {set : StoredSet} (h : set.Unrepeated) :
    (Answer.ofSet set).Unrepeated := by
  cases set <;> exact h

def Reply.answered : Reply → List Answer
  | answer a => [a]
  | answers as => as.map Prod.snd
  | evaluation e _ => [e.answer]
  | done | member _ | failed .. => []

namespace Workspace

variable {w next : Workspace} {name : String}

theorem unrepeated_of_find (tidy : w.registry.Tidy) {set : StoredSet}
    (found : w.find name = .ok set) : set.Unrepeated := by
  unfold find at found
  split at found
  next held =>
    cases found
    exact tidy.get? held
  next => cases found

theorem unrepeated_of_operand (tidy : w.registry.Tidy) {x : Operand}
    (found : w.operand name = .ok x) : x.set.Unrepeated := by
  obtain ⟨set, held, rfl⟩ := map_eq_ok found
  exact unrepeated_of_find tidy held

theorem unrepeated_of_compute (tidy : w.registry.Tidy) {op : Operation} {a b : String}
    {set : StoredSet} (computed : w.compute op a b = .ok (.set set)) : set.Unrepeated := by
  obtain ⟨left, first, computed⟩ := bind_eq_ok computed
  obtain ⟨right, second, computed⟩ := bind_eq_ok computed
  exact unrepeated_combine (unrepeated_of_operand tidy first) (unrepeated_of_operand tidy second)
    (Except.ok.inj computed)

theorem of_applyAnew {op : Operation} {a b : String} {value : Value}
    (applied : w.applyAnew op a b = .ok (value, next)) :
    w.compute op a b = .ok value ∧ next.registry = w.registry := by
  obtain ⟨anew, computed, same⟩ := bind_eq_ok applied
  cases same
  exact ⟨computed, rfl⟩

theorem keeps_tidy (w : Workspace) (expression : String) :
    Keeps applyAnew w expression fun v _ => v.registry.Tidy where
  execution tidy applied := by rwa [(of_applyAnew applied).2]
  temporary tidy applied := by
    obtain ⟨computed, same⟩ := of_applyAnew applied
    have unrepeated := unrepeated_of_compute tidy computed
    rw [← same] at tidy
    exact tidy.insert _ unrepeated
  nothing tidy := tidy.insert (.finite []) unrepeated_nil
  whole {s operand} tidy _ :=
    tidy.insert (.finite (s.workspace.registry.gathered operand)) (unrepeated_distinct _)
  missing tidy _ _ _ := tidy.insert (.finite []) unrepeated_nil

theorem tidy_evaluateBy (tidy : w.registry.Tidy) (expression : String) :
    (w.evaluateBy applyAnew expression).workspace.registry.Tidy ∧
      ∀ evaluation, (w.evaluateBy applyAnew expression).result = .ok evaluation →
        evaluation.answer.Unrepeated := by
  have last := (keeps_tidy w expression).evaluateInfix tidy
  refine ⟨?_, fun evaluation evaluated => ?_⟩
  · rw [evaluateBy_workspace, registry_dropTemporaries]
    exact last.withoutTemporaries
  cases ended : ((Run.start w).evaluateInfix applyAnew expression).result with
  | ok answer =>
    obtain ⟨steps, -, same⟩ := evaluateBy_of_ok ended
    cases same.symm.trans evaluated
    rcases Run.grounded_evaluateInfix (Run.start w) expression answer ended with
      rfl | ⟨_, _, _, rfl⟩ | ⟨name, set, found, rfl⟩
    · exact unrepeated_nil
    · trivial
    · exact (unrepeated_of_find last found).answer
  | error e =>
    rcases evaluateBy_of_error ended with ⟨-, same⟩ | ⟨-, steps, same⟩
    · cases same.symm.trans evaluated
    · cases same.symm.trans evaluated
      exact unrepeated_nil

theorem tidy_evaluateOperationBy (tidy : w.registry.Tidy) {op : Operation} {a b : String}
    {evaluation : Evaluation}
    (evaluated : w.evaluateOperationBy applyAnew op a b = .ok (evaluation, next)) :
    next.registry.Tidy ∧ evaluation.answer.Unrepeated := by
  obtain ⟨left, -, evaluated⟩ := bind_eq_ok evaluated
  obtain ⟨right, -, evaluated⟩ := bind_eq_ok evaluated
  obtain ⟨⟨value, last⟩, applied, same⟩ := bind_eq_ok evaluated
  cases same
  obtain ⟨computed, same⟩ := of_applyAnew applied
  refine ⟨by rwa [same], ?_⟩
  cases value with
  | set set => exact (unrepeated_of_compute tidy computed).answer
  | relation => trivial

theorem tidy_addElements (tidy : w.registry.Tidy) {elements : List Element}
    (added : w.addElements name elements = .ok next) : next.registry.Tidy := by
  obtain ⟨-, -, same⟩ := bind_eq_ok added
  cases same
  exact tidy.insert (.finite (distinct elements)) (unrepeated_distinct elements)

theorem tidy_settle (tidy : w.registry.Tidy) {change : Except SetError Workspace}
    (h : ∀ next, change = .ok next → next.registry.Tidy) :
    (w.settle change).2.registry.Tidy ∧
      ∀ answer ∈ (w.settle change).1.answered, answer.Unrepeated := by
  cases change with
  | ok next => exact ⟨h next rfl, nofun⟩
  | error e => exact ⟨tidy, nofun⟩

theorem unrepeated_of_mem_all (tidy : w.registry.Tidy) {entry : String × Answer}
    (member : entry ∈ w.all) : entry.2.Unrepeated := by
  simp only [all, Registry.sets, List.filter_append, List.map_append, List.mem_append,
    List.mem_map, List.mem_filter] at member
  rcases member with ⟨_, ⟨⟨entry, stored, rfl⟩, -⟩, rfl⟩ | ⟨_, ⟨⟨entry, stored, rfl⟩, -⟩, rfl⟩
  · exact tidy.finite entry stored
  · exact tidy.symbolic entry stored

/-- No call brings a repetition in, and none is replied. -/
theorem tidy_call (tidy : w.registry.Tidy) (c : Call) :
    (w.call applyAnew c).2.registry.Tidy ∧
      ∀ answer ∈ (w.call applyAnew c).1.answered, answer.Unrepeated := by
  cases c with
  | addElements name elements => exact tidy_settle tidy fun next => tidy_addElements tidy
  | addLiteral name text =>
    refine tidy_settle tidy fun next added => ?_
    obtain ⟨-, -, added⟩ := bind_eq_ok added
    obtain ⟨elements, -, added⟩ := bind_eq_ok added
    exact tidy_addElements tidy added
  | addItems name items =>
    refine tidy_settle tidy fun next added => ?_
    obtain ⟨-, -, added⟩ := bind_eq_ok added
    obtain ⟨elements, -, added⟩ := bind_eq_ok added
    exact tidy_addElements tidy added
  | addSymbolic name definition rule samples =>
    refine tidy_settle tidy fun next added => ?_
    obtain ⟨-, -, same⟩ := bind_eq_ok added
    cases same
    exact tidy.insert (.symbolic (.ofRule definition rule (distinct samples)))
      (unrepeated_distinct samples)
  | remove name =>
    refine tidy_settle tidy fun next removed => ?_
    unfold remove at removed
    split at removed
    · cases removed
      exact tidy.erase name
    · cases removed
  | setExplains explains => exact ⟨tidy, nofun⟩
  | operate op a b =>
    unfold call
    dsimp only
    split
    next evaluated =>
      obtain ⟨tidy', unrepeated⟩ := tidy_evaluateOperationBy tidy evaluated
      exact ⟨tidy', fun answer member => List.mem_singleton.mp member ▸ unrepeated⟩
    next => exact ⟨tidy, nofun⟩
  | evaluate expression =>
    obtain ⟨tidy', unrepeated⟩ := tidy_evaluateBy tidy expression
    refine ⟨tidy', fun answer member => ?_⟩
    unfold call Reply.ofOutcome at member
    dsimp only at member
    split at member
    next evaluated => exact List.mem_singleton.mp member ▸ unrepeated _ evaluated
    next => cases member
  | get name =>
    refine ⟨tidy, fun answer member => ?_⟩
    cases found : w.find name with
    | error e =>
      simp [call, Workspace.get, found, Except.map, Reply.ofResult, Reply.answered] at member
    | ok set =>
      simp only [call, Workspace.get, found, Except.map, Reply.ofResult, Reply.answered,
        List.mem_singleton] at member
      exact member ▸ (unrepeated_of_find tidy found).answer
  | all =>
    refine ⟨tidy, fun answer member => ?_⟩
    obtain ⟨entry, stored, rfl⟩ := List.mem_map.mp member
    exact unrepeated_of_mem_all tidy stored
  | isMember x name =>
    refine ⟨tidy, fun answer member => ?_⟩
    unfold call Reply.ofResult at member
    dsimp only at member
    split at member <;> cases member

theorem tidy_after (tidy : w.registry.Tidy) (calls : List Call) :
    (w.after applyAnew calls).registry.Tidy := by
  induction calls generalizing w with
  | nil => exact tidy
  | cons c rest ih => exact ih (tidy_call tidy c).1

theorem tidy_of_reaches {registry : Registry} (h : registry = .standard ∨ registry = .empty)
    (reached : (ofRegistry registry).Reaches w) : w.registry.Tidy := by
  have start : registry.Tidy := by
    rcases h with rfl | rfl
    · exact Registry.tidy_standard
    · exact Registry.tidy_empty
  obtain ⟨calls, rfl⟩ := reached
  have same := (after_bare rfl (sound_of_memo_nil (w := ofRegistry registry) rfl) calls).1
  rw [registry_eq_of_bare same]
  exact tidy_after start calls

/-- Whatever the calls of a session that starts with the predefined sets or with none, afterwards no
name stands for two sets and no set holds an element or a sample twice, and no set that the next
call replies with does. -/
theorem session_unrepeated {registry : Registry}
    (h : registry = .standard ∨ registry = .empty) (calls : List Call) :
    ((ofRegistry registry).after apply calls).registry.Tidy ∧
      ∀ c, ∀ answer ∈ (((ofRegistry registry).after apply calls).call apply c).1.answered,
        answer.Unrepeated := by
  have tidy := tidy_of_reaches h ⟨calls, rfl⟩
  have sound : (ofRegistry registry).Sound := sound_of_memo_nil rfl
  obtain ⟨same, sound'⟩ := after_bare rfl sound calls
  refine ⟨tidy, fun c answer member => ?_⟩
  rw [(call_bare same sound' c).1] at member
  rw [registry_eq_of_bare same] at tidy
  exact (tidy_call tidy c).2 answer member

/-- Elements that are listed twice, or in another order, are in a union once. -/
theorem session_unrepeated_union :
    (((ofRegistry .empty).after apply [
        .addElements "A" [.text "a", .text "a", .collection [.text "a", .text "b"]],
        .addElements "B" [.collection [.text "b", .text "a"], .text "a"]]).call apply
          (.evaluate "A ∪ B")).1.answered =
        [.finite [.text "a", .collection [.text "a", .text "b"]]] ∧
      Unrepeated [.text "a", .collection [.text "a", .text "b"]] := by
  have replied : (((ofRegistry .empty).after apply [
      .addElements "A" [.text "a", .text "a", .collection [.text "a", .text "b"]],
      .addElements "B" [.collection [.text "b", .text "a"], .text "a"]]).call apply
        (.evaluate "A ∪ B")).1.answered =
      [.finite [.text "a", .collection [.text "a", .text "b"]]] := by cbv
  have unrepeated := (session_unrepeated (.inr rfl) [
    .addElements "A" [.text "a", .text "a", .collection [.text "a", .text "b"]],
    .addElements "B" [.collection [.text "b", .text "a"], .text "a"]]).2 (.evaluate "A ∪ B")
  rw [replied] at unrepeated
  exact ⟨replied, unrepeated _ (List.mem_singleton_self _)⟩

end Workspace

end DiscreteMath.SetAlgebra
