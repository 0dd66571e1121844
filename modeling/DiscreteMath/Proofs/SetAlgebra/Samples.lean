import DiscreteMath.Proofs.Result
import DiscreteMath.Proofs.SetAlgebra.ElementEquality
import DiscreteMath.Proofs.SetAlgebra.Recall
import DiscreteMath.Proofs.SetAlgebra.RegularSets

/-!
# Samples are members

An operation finds the samples of its value among those of its operands. If all of these are known
to belong to their sets then all samples of the value do, except that an intersection of symbolic
sets has a placeholder if no sample of either is known to belong to both. Other operations may take
that placeholder over. No evaluation brings any other exception in.

## Main definitions

* `SymbolicSet.Sampled` — all samples are members, but for a placeholder that is accounted for.
* `Symbolic.Gap` — an intersection for which the samples of its operands give none.
* `Symbolic.sources` — the operands that an operation takes samples over from.
* `Registry.Inherits` — the placeholder of a set comes from such an intersection.
-/

namespace DiscreteMath.SetAlgebra

/-- Every sample is known to belong to the set, or is a placeholder with a reason. -/
def SymbolicSet.Sampled (set : SymbolicSet) (reason : Prop) : Prop :=
  ∀ x ∈ set.samples, set.rule x = some true ∨ x = Symbolic.placeholder ∧ reason

def StoredSet.Sampled : StoredSet → Prop → Prop
  | .finite _, _ => True
  | .symbolic set, reason => set.Sampled reason

theorem StoredSet.Sampled.mono {set : StoredSet} {reason reason' : Prop}
    (sampled : set.Sampled reason) (weaker : reason → reason') : set.Sampled reason' := by
  cases set with
  | finite => trivial
  | symbolic set => exact fun x member => (sampled x member).imp id (And.imp_right weaker)

/-! ### Operations -/

namespace Symbolic

/-- An intersection of symbolic sets such that no sample of either is known to belong to both. -/
structure Gap (op : Operation) (a b : Operand) : Prop where
  intersection : op = .intersection
  apart : ∃ s t, a.set = .symbolic s ∧ b.set = .symbolic t ∧
    ∀ x ∈ s.samples ++ t.samples, ¬ (s.rule x = some true ∧ t.rule x = some true)

/-- The operands that an operation takes samples over from, whether they belong to the other
operand or not. -/
def sources : Operation → Operand → Operand → List Operand
  | .union, a, b | .symmetricDifference, a, b => [a, b]
  | .difference, a, _ => [a]
  | .complement, _, b => [b]
  | .intersection, _, _ | .subset, _, _ => []

/-- The placeholder is a sample of an operand that has a reason for it and that the operation takes
samples over from. -/
def Passes (op : Operation) (a b : Operand) (reason : Operand → Prop) : Prop :=
  ∃ x ∈ sources op a b, placeholder ∈ x.samples ∧ reason x

variable {a b : Operand} {reason : Operand → Prop}

theorem test_of_mem_samples {reason : Prop} (sampled : a.set.Sampled reason) {x : Element}
    (member : x ∈ a.samples) :
    a.set.test x = some true ∨ x = placeholder ∧ placeholder ∈ a.samples ∧ reason := by
  obtain ⟨label, set⟩ := a
  cases set with
  | finite elements => exact .inl (congrArg some (holds_of_mem member))
  | symbolic set =>
    refine (sampled x member).imp_right ?_
    rintro ⟨rfl, reason⟩
    exact ⟨rfl, member, reason⟩

theorem sampled_union (left : a.set.Sampled (reason a)) (right : b.set.Sampled (reason b)) :
    (union a b).Sampled (Passes .union a b reason) := by
  unfold union
  split
  · exact nofun
  · intro x member
    rcases List.mem_append.mp ((distinct_sublist _).subset member) with member | member
    · refine (test_of_mem_samples left member).imp (fun known => ?_) fun ⟨same, passes⟩ => ?_
      · simp [either, known]
      · exact ⟨same, a, by simp [sources], passes⟩
    · refine (test_of_mem_samples right member).imp (fun known => ?_) fun ⟨same, passes⟩ => ?_
      · simp only [either, known]
        cases a.set.test x with
        | none => rfl
        | some answer => cases answer <;> rfl
      · exact ⟨same, b, by simp [sources], passes⟩

/-- Common samples are members whatever the samples of the operands are. -/
theorem both_of_mem_commonSamples {x : Element} (member : x ∈ commonSamples a b) :
    both a.set.test b.set.test x = some true := by
  have common := (List.mem_filter.mp ((distinct_sublist _).subset member)).2
  simp only [StoredSet.contains, Bool.and_eq_true, beq_iff_eq] at common
  simp [both, common]

/-- Where there are no common samples there is a gap. -/
theorem apart_of_commonSamples_nil {s t : SymbolicSet} (left : a.set = .symbolic s)
    (right : b.set = .symbolic t) (none : commonSamples a b = []) :
    ∀ x ∈ s.samples ++ t.samples, ¬ (s.rule x = some true ∧ t.rule x = some true) := by
  rintro x member ⟨first, second⟩
  have samples : a.samples ++ b.samples = s.samples ++ t.samples := by
    simp only [Operand.samples, left, right]
  refine List.filter_eq_nil_iff.mp (distinct_eq_nil.mp none) x (samples ▸ member) ?_
  simp [left, right, StoredSet.contains, StoredSet.test, first, second]

theorem sampled_intersection : (intersection a b).Sampled (Gap .intersection a b) := by
  unfold intersection
  split
  · trivial
  · trivial
  next enumerated enumerated' =>
    intro x member
    dsimp only at member
    split at member
    next none =>
      refine .inr ⟨List.mem_singleton.mp member, rfl, ?_⟩
      cases left : a.set with
      | finite elements => exact absurd left (enumerated elements)
      | symbolic s =>
        cases right : b.set with
        | finite elements => exact absurd right (enumerated' elements)
        | symbolic t =>
          exact ⟨s, t, rfl, rfl, apart_of_commonSamples_nil left right (List.isEmpty_iff.mp none)⟩
    next => exact .inl (both_of_mem_commonSamples member)

/-- A sample outside the other set distinguishes the two. -/
theorem test_of_mem_samplesOutside {reason : Prop} (sampled : a.set.Sampled reason) {x : Element}
    (member : x ∈ samplesOutside a b) :
    a.set.test x = some true ∧ b.set.test x = some false ∨
      x = placeholder ∧ placeholder ∈ a.samples ∧ reason := by
  obtain ⟨member, outside⟩ := List.mem_filter.mp member
  exact (test_of_mem_samples sampled member).imp_left fun known => ⟨known, beq_iff_eq.mp outside⟩

theorem sampled_difference (left : a.set.Sampled (reason a)) :
    (difference a b).Sampled (Passes .difference a b reason) := by
  unfold difference
  split
  · trivial
  · intro x member
    refine (test_of_mem_samplesOutside left member).imp (fun ⟨known, outside⟩ => ?_)
      fun ⟨same, passes⟩ => ⟨same, a, by simp [sources], passes⟩
    simp [butNot, known, outside]

theorem sampled_symmetricDifference (left : a.set.Sampled (reason a))
    (right : b.set.Sampled (reason b)) :
    (symmetricDifference a b).Sampled (Passes .symmetricDifference a b reason) := by
  intro x member
  rcases List.mem_append.mp ((distinct_sublist _).subset member) with member | member
  · refine (test_of_mem_samplesOutside left member).imp (fun ⟨known, outside⟩ => ?_)
      fun ⟨same, passes⟩ => ⟨same, a, by simp [sources], passes⟩
    simp [symmetricDifference, oneOf, known, outside]
  · refine (test_of_mem_samplesOutside right member).imp (fun ⟨known, outside⟩ => ?_)
      fun ⟨same, passes⟩ => ⟨same, b, by simp [sources], passes⟩
    simp [symmetricDifference, oneOf, known, outside]

theorem sampled_complement (right : b.set.Sampled (reason b)) :
    (complement a b).Sampled (Passes .complement a b reason) := by
  unfold complement
  split
  · exact nofun
  · exact sampled_difference right

theorem sampled_combine {op : Operation} (left : a.set.Sampled (reason a))
    (right : b.set.Sampled (reason b)) {set : StoredSet} (value : combine op a b = .set set) :
    set.Sampled (Gap op a b ∨ Passes op a b reason) := by
  cases op with
  | union =>
    cases value
    have sampled : (StoredSet.symbolic (union a b)).Sampled _ := sampled_union left right
    exact sampled.mono .inr
  | intersection =>
    cases value
    exact sampled_intersection.mono .inl
  | difference =>
    cases value
    exact (sampled_difference left).mono .inr
  | symmetricDifference =>
    cases value
    have sampled : (StoredSet.symbolic (symmetricDifference a b)).Sampled _ :=
      sampled_symmetricDifference left right
    exact sampled.mono .inr
  | complement =>
    cases value
    exact (sampled_complement right).mono .inr
  | subset => cases value

end Symbolic

/-- An operation on sets with samples that are members gives one, but for a gap that it leaves or a
placeholder that it takes over. -/
theorem sampled_combine {op : Operation} {a b : Operand} {reason : Operand → Prop}
    (left : a.set.Sampled (reason a)) (right : b.set.Sampled (reason b)) {set : StoredSet}
    (value : combine op a b = .set set) :
    set.Sampled (Symbolic.Gap op a b ∨ Symbolic.Passes op a b reason) := by
  unfold combine at value
  split at value
  · cases op with
    | subset => cases value
    | union | intersection | difference | symmetricDifference | complement =>
      cases value
      trivial
  · exact Symbolic.sampled_combine left right value

/-! ### Registries -/

namespace Registry

/-- An operand that can come up in the evaluation of an expression: a registered set, an enumerated
one, or the value of an operation on such operands. -/
inductive Brings (registry : Registry) : Operand → Prop
  | registered {name : String} {set : StoredSet} : registry.get? name = some set →
      Brings registry ⟨(Workspace.ofRegistry registry).label name, set⟩
  | enumerated (label : String) (elements : List Element) :
      Brings registry ⟨label, .finite elements⟩
  | value {op : Operation} {a b : Operand} {set : StoredSet} : Brings registry a →
      Brings registry b → combine op a b = .set set → Brings registry ⟨set.enclosed, set⟩

/-- The set is the value of an operation on such operands, and its placeholder comes from a gap
between them, or from one of them that has it for that reason. -/
inductive Inherits (registry : Registry) : StoredSet → Prop
  | gap {op : Operation} {a b : Operand} {set : StoredSet} : registry.Brings a →
      registry.Brings b → combine op a b = .set set → Symbolic.Gap op a b → Inherits registry set
  | passed {op : Operation} {a b x : Operand} {set : StoredSet} : registry.Brings a →
      registry.Brings b → combine op a b = .set set → x ∈ Symbolic.sources op a b →
      Symbolic.placeholder ∈ x.samples → Inherits registry x.set → Inherits registry set

theorem sampled_standard {name : String} {set : SymbolicSet}
    (found : standard.get? name = some (.symbolic set)) :
    ∀ x ∈ set.samples, set.rule x = some true := by
  have samples : ∀ entry ∈ predefined, ∀ x ∈ entry.2.samples, entry.2.rule x = some true := by
    decide +kernel
  exact samples _ (predefined_standard name set found)

end Registry

/-! ### Evaluations -/

namespace Workspace

variable {w v next : Workspace} {n : Nat} {name : String} {registry : Registry}

/-- The samples of the sets at hand are members, but for placeholders that come from a gap. -/
def Sampled (w : Workspace) (registry : Registry) : Prop :=
  ∀ name set, w.registry.get? name = some set → set.Sampled (registry.Inherits set)

/-- The sets at hand can come up over the registry, with samples as they should be. -/
def Supplied (w : Workspace) (registry : Registry) : Prop :=
  ∀ name x, w.operand name = .ok x → registry.Brings x ∧ x.set.Sampled (registry.Inherits x.set)

theorem operand_eq_ok {x : Operand} :
    w.operand name = .ok x ↔ w.registry.get? name = some x.set ∧ x.label = w.label name := by
  unfold operand find
  obtain ⟨label, set⟩ := x
  cases w.registry.get? name <;> simp [Except.map, eq_comm, and_comm]

theorem Supplied.of_registry (supplied : v.Supplied registry) (same : w.registry = v.registry) :
    w.Supplied registry :=
  fun name x found => supplied name x (by simpa only [operand, find, label, same] using found)

theorem Supplied.sampled (supplied : w.Supplied registry) : w.Sampled registry :=
  fun name set found => (supplied name ⟨w.label name, set⟩ (operand_eq_ok.mpr ⟨found, rfl⟩)).2

/-- What is stored under a name is to be supplied too. -/
theorem Supplied.store (supplied : w.Supplied registry) {set : StoredSet} (name : String)
    (brings : registry.Brings ⟨(w.store name set).label name, set⟩)
    (sampled : set.Sampled (registry.Inherits set)) : (w.store name set).Supplied registry := by
  rintro other ⟨label, found⟩ operand
  obtain ⟨held, rfl⟩ := operand_eq_ok.mp operand
  by_cases same : other = name
  · subst same
    simp only [Workspace.store, withRegistry, Registry.get?_insert, if_pos] at held
    cases held
    exact ⟨brings, sampled⟩
  · have kept : (w.store name set).registry.get? other = w.registry.get? other := by
      simp only [Workspace.store, withRegistry, Registry.get?_insert, if_neg same]
    refine supplied other _ (operand_eq_ok.mpr ⟨kept.symm.trans held, ?_⟩)
    simp only [label, kept]

theorem Supplied.storeFinite (supplied : w.Supplied registry) (name : String)
    (elements : List Element) : (w.store name (.finite elements)).Supplied registry :=
  supplied.store name (.enumerated _ elements) trivial

/-- The value of an operation on sets at hand can be stored as a temporary set. -/
theorem Supplied.temporary (supplied : w.Supplied registry) {op : Operation} {a b : String}
    {set : StoredSet} (computed : w.compute op a b = .ok (.set set)) (n : Nat) :
    (w.store (temporaryName n) set).Supplied registry := by
  obtain ⟨x, left, computed⟩ := bind_eq_ok computed
  obtain ⟨y, right, computed⟩ := bind_eq_ok computed
  have value : combine op x y = .set set := Except.ok.inj computed
  obtain ⟨bringsLeft, sampledLeft⟩ := supplied a x left
  obtain ⟨bringsRight, sampledRight⟩ := supplied b y right
  have label : (w.store (temporaryName n) set).label (temporaryName n) = set.enclosed := by
    simp [Workspace.label, Workspace.store, withRegistry, Registry.get?_insert]
  refine supplied.store _ (label ▸ .value bringsLeft bringsRight value) ?_
  have sampled : set.Sampled (Symbolic.Gap op x y ∨
      Symbolic.Passes op x y fun z => registry.Inherits z.set) :=
    sampled_combine sampledLeft sampledRight value
  refine sampled.mono ?_
  rintro (gap | ⟨x, source, member, inherits⟩)
  · exact .gap bringsLeft bringsRight value gap
  · exact .passed bringsLeft bringsRight value source member inherits

theorem keeps_supplied (w : Workspace) (expression : String) (registry : Registry) :
    Keeps apply w expression fun v _ => v.Sound ∧ v.Supplied registry where
  execution := by
    rintro v n op a b value next ⟨sound, supplied⟩ applied
    obtain ⟨-, same, sound'⟩ := sound.of_apply applied
    exact ⟨sound', supplied.of_registry (registry_eq_of_bare same)⟩
  temporary := by
    rintro v n op a b set next ⟨sound, supplied⟩ applied
    obtain ⟨computed, same, -⟩ := sound.of_apply applied
    refine ⟨sound_store _ _ _, (supplied.temporary computed n).of_registry ?_⟩
    simp only [store, withRegistry, registry_eq_of_bare same]
  nothing := by
    rintro v n ⟨-, supplied⟩
    exact ⟨sound_store _ _ _, supplied.storeFinite _ _⟩
  whole := by
    rintro s operand ⟨-, supplied⟩ -
    exact ⟨sound_store _ _ _, supplied.storeFinite _ _⟩
  missing := by
    rintro v n name ⟨-, supplied⟩ - - -
    exact ⟨sound_store _ _ _, supplied.storeFinite _ _⟩

/-- A registered set comes up in the evaluation of an expression as it is. -/
theorem supplied_of_sampled (sampled : ∀ name x, w.operand name = .ok x → x.set.Sampled False) :
    w.Supplied w.registry := by
  refine fun name x found => ⟨?_, (sampled name x found).mono False.elim⟩
  obtain ⟨held, label⟩ := operand_eq_ok.mp found
  obtain ⟨_, set⟩ := x
  cases label
  exact .registered held

/-- The answer of an operation is the value of its operands, be it computed or remembered. -/
theorem Sound.answer_of_evaluateOperation (sound : w.Sound) {op : Operation} {a b : String}
    {evaluation : Evaluation} (evaluated : w.evaluateOperation op a b = .ok (evaluation, next)) :
    ∃ x y, w.operand a = .ok x ∧ w.operand b = .ok y ∧
      evaluation.answer = .ofValue (combine op x y) := by
  obtain ⟨x, left, evaluated⟩ := bind_eq_ok evaluated
  obtain ⟨y, right, evaluated⟩ := bind_eq_ok evaluated
  obtain ⟨⟨value, last⟩, applied, same⟩ := bind_eq_ok evaluated
  cases same
  refine ⟨x, y, left, right, congrArg Answer.ofValue ?_⟩
  have computed := (sound.of_apply applied).1
  simpa [compute, left, right, bind, Except.bind, pure, Except.pure, eq_comm] using computed

/-- An answer that is a symbolic set is one at hand in the end. -/
theorem exists_of_symbolic {expression : String} {evaluation : Evaluation}
    {definition representation : String} {samples : List Element}
    (evaluated : (w.evaluate expression).result = .ok evaluation)
    (symbolic : evaluation.answer = .symbolic definition representation samples) :
    ∃ name set, ((Run.start w).evaluateInfix apply expression).run.workspace.find name =
      .ok (.symbolic set) ∧ evaluation.answer = .ofSet (.symbolic set) := by
  cases ended : ((Run.start w).evaluateInfix apply expression).result with
  | ok answer =>
    obtain ⟨steps, -, same⟩ := evaluateBy_of_ok ended
    cases same.symm.trans evaluated
    obtain rfl : answer = .symbolic definition representation samples := symbolic
    rcases Run.grounded_evaluateInfix (Run.start w) expression _ ended with
      other | ⟨_, _, _, other⟩ | ⟨name, set, found, same⟩
    · cases other
    · cases other
    · cases set with
      | finite elements => cases same
      | symbolic set => exact ⟨name, set, found, same⟩
  | error e =>
    rcases evaluateBy_of_error ended with ⟨-, same⟩ | ⟨-, steps, same⟩
    · cases same.symm.trans evaluated
    · cases same.symm.trans evaluated
      cases symbolic

/-- In a session where the samples of all registered symbolic sets are known to belong to them, the
same holds of the value of every operation, unless it is an intersection of symbolic sets such that
no sample of either is known to belong to both: that has a placeholder. It holds of every set that
comes up in the evaluation of an expression, too, its answer included, but for placeholders that
come from such an intersection. -/
theorem samples_belong {start : Registry} (reached : (ofRegistry start).Reaches w)
    (sampled : ∀ name set, w.registry.get? name = some (.symbolic set) →
      ∀ x ∈ set.samples, set.rule x = some true) :
    (∀ op a b evaluation next, w.evaluateOperation op a b = .ok (evaluation, next) →
      ∃ x y, w.operand a = .ok x ∧ w.operand b = .ok y ∧
        evaluation.answer = .ofValue (combine op x y) ∧
        ∀ set, combine op x y = .set set → set.Sampled (Symbolic.Gap op x y)) ∧
    ∀ expression, (∀ r rest, w.Visits apply expression r rest → r.workspace.Sampled w.registry) ∧
      ((Run.start w).evaluateInfix apply expression).run.workspace.Sampled w.registry ∧
      ∀ evaluation definition representation samples,
        (w.evaluate expression).result = .ok evaluation →
        evaluation.answer = .symbolic definition representation samples →
        ∃ name set, ((Run.start w).evaluateInfix apply expression).run.workspace.find name =
          .ok (.symbolic set) ∧ evaluation.answer = .ofSet (.symbolic set) := by
  have sound : w.Sound := sound_of_reaches reached (sound_of_memo_nil rfl)
  have known : ∀ name x, w.operand name = .ok x → x.set.Sampled False := by
    rintro name ⟨label, set⟩ found
    cases set with
    | finite elements => trivial
    | symbolic set =>
      exact fun x member => .inl (sampled name set (operand_eq_ok.mp found).1 x member)
  refine ⟨fun op a b evaluation next evaluated => ?_, fun expression => ?_⟩
  · obtain ⟨x, y, left, right, answer⟩ := sound.answer_of_evaluateOperation evaluated
    refine ⟨x, y, left, right, answer, fun set value => ?_⟩
    have samples : set.Sampled (Symbolic.Gap op x y ∨ Symbolic.Passes op x y fun _ => False) :=
      sampled_combine (known a x left) (known b y right) value
    refine samples.mono ?_
    rintro (gap | ⟨_, _, _, none⟩)
    · exact gap
    · exact none.elim
  · have keeps := keeps_supplied w expression w.registry
    have start : w.Sound ∧ w.Supplied w.registry := ⟨sound, supplied_of_sampled known⟩
    exact ⟨fun r rest visits => (keeps.visited start visits).2.sampled,
      (keeps.evaluateInfix start).2.sampled,
      fun _ _ _ _ evaluated symbolic => exists_of_symbolic evaluated symbolic⟩

/-- No sample is both even and odd, so that the placeholder is shown, also in a union with that
intersection. -/
theorem samples_belong_standard :
    (∃ x y evaluation next, standard.evaluateOperation .intersection "E" "O" =
        .ok (evaluation, next) ∧ evaluation.answer = .ofValue (combine .intersection x y) ∧
      Symbolic.Gap .intersection x y ∧ ∀ set, combine .intersection x y = .set set →
        set.Sampled (Symbolic.Gap .intersection x y)) ∧
    ((Run.start standard).evaluateInfix apply "(E ∩ O) ∪ N").run.workspace.Sampled .standard ∧
    ∃ evaluation, (standard.evaluate "(E ∩ O) ∪ N").result = .ok evaluation ∧
      ∃ name set, ((Run.start standard).evaluateInfix apply "(E ∩ O) ∪ N").run.workspace.find name =
        .ok (.symbolic set) ∧ evaluation.answer = .ofSet (.symbolic set) := by
  have reached : (ofRegistry .standard).Reaches standard := ⟨[], rfl⟩
  obtain ⟨operations, expressions⟩ :=
    samples_belong reached fun name set found => Registry.sampled_standard found
  obtain ⟨-, ended, answers⟩ := expressions "(E ∩ O) ∪ N"
  obtain ⟨evaluation, evaluated, kind⟩ := exists_eq_ok_of_toOption
    (f := fun evaluation => evaluation.answer.kind) (b := "infinite")
    (by decide +kernel : (standard.evaluate "(E ∩ O) ∪ N").result.toOption.map _ = _)
  refine ⟨?_, ended, evaluation, evaluated, ?_⟩
  · obtain ⟨x, y, left, right, answer, samples⟩ := operations .intersection "E" "O" _ _ rfl
    refine ⟨x, y, _, _, rfl, answer, ⟨rfl, ?_⟩, samples⟩
    cases left
    cases right
    exact ⟨_, _, rfl, rfl, by decide +kernel⟩
  · cases answer : evaluation.answer with
    | symbolic definition representation samples =>
      have found := answers evaluation definition representation samples evaluated answer
      rwa [answer] at found
    | finite => simp [answer, Answer.kind] at kind
    | relation => simp [answer, Answer.kind] at kind

end Workspace

end DiscreteMath.SetAlgebra
