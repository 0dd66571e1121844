import DiscreteMath.Proofs.SetAlgebra.RegularSets
import DiscreteMath.Proofs.SetAlgebra.TermRun

/-!
# What belongs to the value of an expression

An operation on regular sets gives a regular set, to which belongs what a connective of the two
memberships says, whichever of the sets are enumerated. So the value of an expression is its
operations read as connectives.

## Main definitions

* `Operation.connective` — the meaning of an operation at one element.
* `Term.holds` — a term read as a Boolean formula over its names.
-/

namespace DiscreteMath.SetAlgebra

/-- The meaning of an operation at one element. The second operand of a complement is the universe,
and a subset is read as an implication. -/
def Operation.connective : Operation → Bool → Bool → Bool
  | union, a, b => a || b
  | intersection, a, b => a && b
  | difference, a, b => a && !b
  | symmetricDifference, a, b => a != b
  | complement, a, b => b && !a
  | subset, a, b => !a || b

def Term.holds (belongs : String → Bool) : Term → Bool
  | name letter => belongs letter
  | complement t => Operation.complement.connective (t.holds belongs) (belongs universeName)
  | binary op _ l r => op.connective (l.holds belongs) (r.holds belongs)

/-! ### Regular sets -/

namespace StoredSet

@[simp] theorem contains_finite (elements : List Element) (x : Element) :
    (finite elements).contains x = holds elements x := by
  simp [contains, test]

variable {set : StoredSet}

/-- A regular set leaves nothing undecided. -/
theorem Regular.test_eq (h : set.Regular) (x : Element) : set.test x = some (set.contains x) := by
  cases set with
  | finite elements => simp [test]
  | symbolic set =>
    obtain ⟨known, decided⟩ := Option.isSome_iff_exists.mp (h.decides x)
    simp only [contains, test, decided]
    cases known <;> rfl

theorem Regular.respects_test (h : set.Regular) : Respects set.test := by
  cases set with
  | finite elements => exact fun x y same => congrArg some (respects_holds elements x y same)
  | symbolic set => exact h.respects

theorem Regular.respects (h : set.Regular) : Respects set.contains := fun x y same => by
  simp only [contains, h.respects_test x y same]

end StoredSet

namespace Operand

variable {a : Operand}

theorem toList_literal (elements : List Element) :
    ∃ rest, (literal elements).toList = '\x7b' :: rest := by
  refine ⟨(Text.join ", " (Element.allShown elements) ++ "\x7d").toList, ?_⟩
  simp [literal, Element.shown]

theorem modest_or_universe (a : Operand) (h : a.set.Regular) :
    Modest a.definition.toList ∨ a.definition = "U" := by
  obtain ⟨label, set⟩ := a
  cases set with
  | finite elements =>
    obtain ⟨rest, text⟩ := toList_literal elements
    refine .inl ?_
    simp only [definition, text]
    exact modest_of_head (by decide) (by decide)
  | symbolic set => exact h.named.imp id And.left

theorem contains_of_isUniversal (h : a.set.Regular) (universal : a.isUniversal = true)
    (x : Element) : a.set.contains x = true := by
  obtain ⟨label, set⟩ := a
  cases set with
  | finite elements => cases universal
  | symbolic set =>
    simp [StoredSet.contains, StoredSet.test, SymbolicSet.Regular.rule_of_isUniversal h universal x]

end Operand

/-! ### Operations -/

theorem holds_without (elements others : List Element) (x : Element) :
    holds (without elements others) x = (holds elements x && !holds others x) :=
  holds_filter (fun _ _ same => by rw [respects_holds others _ _ same]) elements x

theorem holds_shared (elements others : List Element) (x : Element) :
    holds (shared elements others) x = (holds elements x && holds others x) :=
  holds_filter (respects_holds others) elements x

/-- What an operation on enumerated sets gives. -/
theorem Enumerated.contains_combine {op : Operation} (proper : op ≠ .subset) (a b : String)
    (x y : List Element) :
    ∃ elements, Enumerated.combine op a x b y = .set (.finite elements) ∧
      ∀ z, holds elements z = op.connective (holds x z) (holds y z) := by
  cases op with
  | subset => exact absurd rfl proper
  | union | symmetricDifference =>
    refine ⟨_, rfl, fun z => ?_⟩
    simp only [holds_append, holds_without, Operation.connective]
    cases holds x z <;> cases holds y z <;> rfl
  | intersection | difference | complement =>
    refine ⟨_, rfl, fun z => ?_⟩
    simp only [holds_without, holds_shared, Operation.connective]

namespace Symbolic

variable {a b : Operand}

/-- The value of a set by its rule. -/
theorem contains_of_rule {set : SymbolicSet} {x : Element} {known : Bool}
    (h : set.rule x = some known) : (StoredSet.symbolic set).contains x = known := by
  simp only [StoredSet.contains, StoredSet.test, h]
  cases known <;> rfl

/-- A definition composed with a sign between blanks. -/
theorem toList_composed (left right sign : String) (c : Char)
    (h : sign.toList = [' ', c, ' '] := by rfl) :
    ∃ rest, (left ++ sign ++ right).toList = left.toList ++ ' ' :: c :: rest := by
  refine ⟨' ' :: right.toList, ?_⟩
  rw [String.toList_append, String.toList_append, h, List.append_assoc]
  rfl

variable (ha : a.set.Regular) (hb : b.set.Regular)
include ha hb

/-- A set of which the rule computes a connective, and the definition is that of the first operand,
followed by a sign. -/
theorem spec_composed (f : Bool → Bool → Bool) {set : SymbolicSet} {c : Char}
    (sign : Text.isBlank c = false ∧ c ≠ 'U' ∧ c ≠ '=')
    (definition : ∃ rest, set.definition.toList = a.definition.toList ++ ' ' :: c :: rest)
    (rule : ∀ x, set.rule x = some (f (a.set.contains x) (b.set.contains x))) :
    (StoredSet.symbolic set).Regular ∧
      ∀ x, (StoredSet.symbolic set).contains x = f (a.set.contains x) (b.set.contains x) := by
  refine ⟨⟨⟨fun x => by rw [rule]; rfl, fun x y same => ?_⟩, .inl ?_⟩, fun x =>
    contains_of_rule (rule x)⟩
  · rw [rule, rule, ha.respects x y same, hb.respects x y same]
  · obtain ⟨rest, text⟩ := definition
    rw [text]
    rcases a.modest_or_universe ha with modest | whole
    · exact modest.append sign.1 sign.2.1 rest
    · rw [whole]
      exact modest_of_universe sign.1 sign.2.2 rest

theorem union_spec :
    (StoredSet.symbolic (union a b)).Regular ∧
      ∀ x, (StoredSet.symbolic (union a b)).contains x =
        (a.set.contains x || b.set.contains x) := by
  by_cases universal : (a.isUniversal || b.isUniversal) = true
  · have whole : union a b = everything := if_pos universal
    rw [whole]
    refine ⟨⟨⟨fun _ => rfl, fun _ _ _ => rfl⟩, .inr ⟨rfl, fun _ => rfl⟩⟩, fun x => ?_⟩
    have all : (StoredSet.symbolic everything).contains x = true := contains_of_rule rfl
    rw [all]
    rcases Bool.or_eq_true _ _ |>.mp universal with left | right
    · rw [Operand.contains_of_isUniversal ha left, Bool.true_or]
    · rw [Operand.contains_of_isUniversal hb right, Bool.or_true]
  · have composed : union a b = ⟨a.definition ++ " ∪ " ++ b.definition, _, _,
      either a.set.test b.set.test⟩ := if_neg universal
    rw [composed]
    refine spec_composed ha hb (· || ·) (c := '∪') (by decide) (toList_composed _ _ _ _) fun x => ?_
    simp only [either, ha.test_eq, hb.test_eq]
    cases a.set.contains x <;> cases b.set.contains x <;> rfl

theorem intersection_spec :
    (intersection a b).Regular ∧
      ∀ x, (intersection a b).contains x = (a.set.contains x && b.set.contains x) := by
  unfold intersection
  split
  next elements left =>
    refine ⟨trivial, fun x => ?_⟩
    rw [StoredSet.contains_finite, holds_filter hb.respects, left, StoredSet.contains_finite]
  next elements right _ =>
    refine ⟨trivial, fun x => ?_⟩
    rw [StoredSet.contains_finite, holds_filter ha.respects, right, StoredSet.contains_finite,
      Bool.and_comm]
  next =>
    refine spec_composed ha hb (· && ·) (c := '∩') (by decide) (toList_composed _ _ _ _) fun x => ?_
    simp only [both, ha.test_eq, hb.test_eq]
    cases a.set.contains x <;> cases b.set.contains x <;> rfl

theorem difference_spec :
    (difference a b).Regular ∧
      ∀ x, (difference a b).contains x = (a.set.contains x && !b.set.contains x) := by
  unfold difference
  split
  next elements left =>
    refine ⟨trivial, fun x => ?_⟩
    have respects : Respects fun x => !b.set.contains x := fun x y same => by
      simp only [hb.respects x y same]
    rw [StoredSet.contains_finite, holds_filter respects, left, StoredSet.contains_finite]
  next =>
    refine spec_composed ha hb (fun p q => p && !q) (c := '-') (by decide)
      (toList_composed _ _ _ _) fun x => ?_
    simp only [butNot, ha.test_eq, hb.test_eq]
    cases a.set.contains x <;> cases b.set.contains x <;> rfl

theorem symmetricDifference_spec :
    (StoredSet.symbolic (symmetricDifference a b)).Regular ∧
      ∀ x, (StoredSet.symbolic (symmetricDifference a b)).contains x =
        (a.set.contains x != b.set.contains x) := by
  have rule (x : Element) :
      (symmetricDifference a b).rule x = some (a.set.contains x != b.set.contains x) := by
    simp only [symmetricDifference, oneOf, ha.test_eq, hb.test_eq]
  refine ⟨⟨⟨fun x => by rw [rule]; rfl, fun x y same => ?_⟩, .inl ?_⟩, fun x =>
    contains_of_rule (rule x)⟩
  · rw [rule, rule, ha.respects x y same, hb.respects x y same]
  · simp only [symmetricDifference, String.toList_append]
    exact modest_of_head (by decide) (by decide)

/-- The complement against a universe, whether it is known as such or not. -/
theorem complement_spec :
    (complement a b).Regular ∧
      ∀ x, (complement a b).contains x = (b.set.contains x && !a.set.contains x) := by
  unfold complement
  split
  next universal =>
    have rule (x : Element) :
        not a.set.test x = some (b.set.contains x && !a.set.contains x) := by
      simp only [not, ha.test_eq, Operand.contains_of_isUniversal hb universal, Option.map_some,
        Bool.true_and]
    exact spec_composed hb ha (fun p q => p && !q) (c := '-') (by decide)
      (toList_composed _ _ _ _) rule
  next => exact difference_spec hb ha

/-- What an operation among which there is a symbolic set gives. -/
theorem combine_spec {op : Operation} (proper : op ≠ .subset) :
    ∃ set, combine op a b = .set set ∧ set.Regular ∧
      ∀ x, set.contains x = op.connective (a.set.contains x) (b.set.contains x) := by
  cases op with
  | union => exact ⟨_, rfl, union_spec ha hb⟩
  | intersection => exact ⟨_, rfl, intersection_spec ha hb⟩
  | difference => exact ⟨_, rfl, difference_spec ha hb⟩
  | symmetricDifference => exact ⟨_, rfl, symmetricDifference_spec ha hb⟩
  | complement => exact ⟨_, rfl, complement_spec ha hb⟩
  | subset => exact absurd rfl proper

end Symbolic

/-- An operation on regular sets gives a regular set, to which belongs what the connective says. -/
theorem combine_spec {op : Operation} (proper : op ≠ .subset) {a b : Operand} (ha : a.set.Regular)
    (hb : b.set.Regular) :
    ∃ set, combine op a b = .set set ∧ set.Regular ∧
      ∀ x, set.contains x = op.connective (a.set.contains x) (b.set.contains x) := by
  unfold combine
  split
  next x y left right =>
    obtain ⟨elements, value, member⟩ := Enumerated.contains_combine proper a.label b.label x y
    refine ⟨_, value, trivial, fun z => ?_⟩
    rw [left, right, StoredSet.contains_finite, StoredSet.contains_finite,
      StoredSet.contains_finite, member]
  next => exact Symbolic.combine_spec ha hb proper

/-! ### Terms -/

structure Registry.Regular (registry : Registry) : Prop where
  whole : registry.contains universeName = true
  sets : ∀ name set, registry.get? name = some set → set.Regular

def Term.isSet : Term → Bool
  | .name _ => true
  | .complement t => t.isSet
  | .binary op _ l r => op != .subset && l.isSet && r.isSet

/-- To the set of a term belongs what the term says as a formula. -/
theorem Term.operand?_spec {registry : Registry} (regular : registry.Regular) {t : Term}
    (isSet : t.isSet = true) (registered : ∀ name ∈ t.names, registry.contains name = true) :
    ∃ x, t.operand? registry = some x ∧ x.set.Regular ∧ ∀ z, x.set.contains z =
      t.holds fun name => (registry.get? name).any (·.contains z) := by
  induction t with
  | name letter =>
    have present := registered letter (by simp [names])
    obtain ⟨set, found⟩ := Option.isSome_iff_exists.mp present
    refine ⟨⟨letter, set⟩, by simp [operand?, found], regular.sets _ _ found, fun z => ?_⟩
    simp [holds, found]
  | complement t ih =>
    obtain ⟨x, value, hx, member⟩ := ih isSet registered
    obtain ⟨whole, found⟩ := Option.isSome_iff_exists.mp regular.whole
    have proper : Operation.complement ≠ .subset := by decide
    obtain ⟨set, combined, hs, member'⟩ :=
      combine_spec proper hx (b := ⟨universeName, whole⟩) (regular.sets _ _ found)
    refine ⟨⟨set.enclosed, set⟩, ?_, hs, fun z => ?_⟩
    · simp [operand?, value, found, combined, Value.operand?]
    · simp [holds, member', member, found]
  | binary op proper l r ihLeft ihRight =>
    simp only [Term.isSet, Bool.and_eq_true, bne_iff_ne] at isSet
    obtain ⟨⟨sets, left⟩, right⟩ := isSet
    obtain ⟨x, value, hx, member⟩ :=
      ihLeft left fun name found => registered name (by simp [names, found])
    obtain ⟨y, value', hy, member'⟩ :=
      ihRight right fun name found => registered name (by simp [names, found])
    obtain ⟨set, combined, hs, member''⟩ := combine_spec sets hx hy
    refine ⟨⟨set.enclosed, set⟩, ?_, hs, fun z => ?_⟩
    · simp [operand?, value, value', combined, Value.operand?]
    · simp [holds, member'', member, member']

/-- The symbolic sets are predefined, or they decide every element, treat equal elements alike and
have a definition that does not begin with `U`. -/
def Registry.Reliable (registry : Registry) : Prop :=
  ∀ name set, registry.get? name = some (.symbolic set) →
    (∃ predefinedName, (predefinedName, set) ∈ predefined) ∨
      set.Decisive ∧ (Text.trim set.definition.toList).head? ≠ some 'U'

theorem Registry.Reliable.regular {registry : Registry} (h : registry.Reliable) {name : String}
    {set : StoredSet} (found : registry.get? name = some set) : set.Regular := by
  cases set with
  | finite elements => trivial
  | symbolic set =>
    rcases h name set found with ⟨predefinedName, member⟩ | ⟨decisive, named⟩
    · exact regular_predefined _ member
    · exact ⟨decisive, .inl (.inl named)⟩

structure Registry.Ordinary (registry : Registry) : Prop where
  reliable : registry.Reliable
  whole : registry.contains universeName = true

theorem Registry.Ordinary.regular {registry : Registry} (h : registry.Ordinary) :
    registry.Regular where
  whole := h.whole
  sets _ _ found := h.reliable.regular found

namespace Workspace

theorem isMember_eq (w : Workspace) (x : Element) (name : String) :
    (w.isMember x name matches .ok true) = (w.registry.get? name).any (·.contains x) := by
  unfold isMember find
  cases w.registry.get? name with
  | none => rfl
  | some set => cases member : set.contains x <;> simp [Except.map, member]

/-- Without explanations, the value of an expression is the Boolean combination of its operands: the
evaluation succeeds, its answer is the only set on the stack, and to that belongs every element for
which the expression is true as a formula over the memberships in the named sets. -/
theorem evaluate_denotes {start : Registry} {w : Workspace} (reached : (ofRegistry start).Reaches w)
    (quiet : w.explains = false) (ordinary : w.registry.Ordinary) {text : String} {t : Term}
    (written : t.Written 1 (tokens text.toList)) (isSet : t.isSet = true)
    (registered : ∀ name ∈ t.names, w.registry.contains name = true) :
    ∃ top value, ((Run.start w).evaluateInfix apply text).run.stack = [top] ∧
      ((Run.start w).evaluateInfix apply text).run.workspace.find top = .ok value ∧
      (w.evaluate text).result = .ok ⟨.ofSet value, [], none⟩ ∧
      ∀ x, value.contains x = t.holds fun name => w.isMember x name matches .ok true := by
  have sound := sound_of_reaches reached (sound_of_memo_nil rfl)
  obtain ⟨x, value, -, member⟩ := t.operand?_spec ordinary.regular isSet registered
  obtain ⟨top, stack, found, result⟩ := evaluate_term sound quiet written value
  refine ⟨top, x.set, stack, found, result, fun z => ?_⟩
  simp only [member, isMember_eq]

/-- The intersection is taken before the union, so that what is in `A` only belongs to the union. -/
theorem evaluate_denotes_union :
    ∃ value, ((standard.after apply [.addElements "A" [.text "a"]]).evaluate
        "(A ∪ N ∩ Z)ᶜ").result = .ok ⟨.ofSet value, [], none⟩ ∧
      value.contains (.text "a") = false ∧ value.contains (.text "b") = true := by
  have reached : (ofRegistry .standard).Reaches
      (standard.after apply [.addElements "A" [.text "a"]]) := ⟨_, rfl⟩
  have ordinary : (standard.after apply [.addElements "A" [.text "a"]]).registry.Ordinary :=
    ⟨fun name set found =>
      .inl ⟨name, Registry.predefined_standard.insert "A" _ name set found⟩, rfl⟩
  have read : tokens "(A ∪ N ∩ Z)ᶜ".toList =
      .opening :: ([.name "A"] ++ .operation .union ::
          ([.name "N"] ++ .operation .intersection :: [.name "Z"])) ++ [.closing] ++
        [.operation .complement] := by cbv
  have written : (Term.complement (.binary .union (by decide) (.name "A")
      (.binary .intersection (by decide) (.name "N") (.name "Z")))).Written
      1 (tokens "(A ∪ N ∩ Z)ᶜ".toList) := by
    rw [read]
    refine .complement (by decide) (.parentheses _ (.binary .union _ (by decide) (.name _ _) ?_))
    exact .binary .intersection _ (by decide) (.name _ _) (.name _ _)
  obtain ⟨top, value, -, -, result, member⟩ :=
    evaluate_denotes reached rfl ordinary written rfl (by decide)
  exact ⟨value, result, (member _).trans (by decide), (member _).trans (by decide)⟩

end Workspace

end DiscreteMath.SetAlgebra
