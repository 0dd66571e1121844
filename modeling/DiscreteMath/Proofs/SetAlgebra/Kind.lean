import DiscreteMath.Proofs.SetAlgebra.Membership

/-!
# What the definition of a value shows

A comparison of symbolic sets reads the labels of their definitions, and an operation puts the
definition of its first operand first. So the value of a term over predefined and enumerated sets
has the label of its first set, unless that is hidden behind a brace, a parenthesis or the
universe.

## Main definitions

* `Kind` — what is seen of a value: that it is enumerated, that it is everything, a label, or that
  it is composed.
* `Kind.combine` — the kind of the value of an operation.
* `Kind.Fits` — a set is of a kind.
-/

namespace DiscreteMath.SetAlgebra

inductive Kind where
  | enumerated
  | everything
  | led (label : String)
  | composed
  deriving DecidableEq

namespace Kind

def ofSet : StoredSet → Kind
  | .finite _ => enumerated
  | .symbolic set => if set.isUniversal then everything else led set.label

/-- The kind of a definition that begins with one of the given kind and an operation. -/
def lead : Kind → Kind
  | led label => led label
  | _ => composed

def combine (op : Operation) (k l : Kind) : Kind :=
  match op with
  | .union =>
    if k = enumerated ∧ l = enumerated then enumerated
    else if k = everything ∨ l = everything then everything
    else k.lead
  | .intersection => if k = enumerated ∨ l = enumerated then enumerated else k.lead
  | .difference => if k = enumerated then enumerated else k.lead
  | .symmetricDifference => if k = enumerated ∧ l = enumerated then enumerated else composed
  | .complement => if l = enumerated then enumerated else l.lead
  | .subset => composed

inductive Fits : Kind → StoredSet → Prop
  | enumerated (elements : List Element) : Fits enumerated (.finite elements)
  | everything {set : SymbolicSet} : set.definition = "U" → Fits everything (.symbolic set)
  | led {set : SymbolicSet} {c : Char} {rest : List Char} : Text.isBlank c = false → c ≠ 'U' →
      set.definition.toList = c :: ' ' :: '=' :: ' ' :: rest →
      Fits (led (String.singleton c)) (.symbolic set)
  | composed {set : SymbolicSet} : Composite set.definition.toList → Fits composed (.symbolic set)

variable {k l : Kind}

theorem fits_finite (k : Kind) (elements : List Element) :
    k.Fits (.finite elements) ↔ k = .enumerated :=
  ⟨fun h => by cases h; rfl, fun h => h ▸ .enumerated elements⟩

theorem Fits.ne_enumerated {set : SymbolicSet} (h : k.Fits (.symbolic set)) : k ≠ .enumerated := by
  cases h <;> simp

theorem exists_of_fits_enumerated {set : StoredSet} (h : enumerated.Fits set) :
    ∃ elements, set = .finite elements := by
  cases h with
  | enumerated elements => exact ⟨elements, rfl⟩

/-- Exactly the sets that show to be everything pass for the universe. -/
theorem Fits.isUniversal_iff {a : Operand} (h : k.Fits a.set) :
    a.isUniversal = true ↔ k = .everything := by
  obtain ⟨label, set⟩ := a
  have modest {set : SymbolicSet} (modest : Modest set.definition.toList) :
      set.isUniversal = false := by
    obtain ⟨short, long⟩ := modest.label
    simp [SymbolicSet.isUniversal, SymbolicSet.label, short, long]
  cases h with
  | enumerated elements => simp [Operand.isUniversal]
  | everything named =>
    simp only [Operand.isUniversal, SymbolicSet.isUniversal, SymbolicSet.label, named, iff_true]
    decide
  | led visible other text =>
    simp [Operand.isUniversal, modest (text ▸ modest_of_head visible other)]
  | composed named => simp [Operand.isUniversal, modest named.modest]

/-- A definition that goes on with a sign after that of a set of some kind. -/
theorem fits_lead {a : Operand} (h : k.Fits a.set) {set : SymbolicSet} {c : Char}
    (sign : Text.isBlank c = false ∧ c ≠ '=')
    (definition : ∃ rest, set.definition.toList = a.definition.toList ++ ' ' :: c :: rest) :
    k.lead.Fits (.symbolic set) := by
  obtain ⟨rest, text⟩ := definition
  obtain ⟨label, stored⟩ := a
  cases h with
  | enumerated elements =>
    obtain ⟨more, brace⟩ := Operand.toList_literal elements
    refine .composed (.inl ⟨'\x7b', more ++ ' ' :: c :: rest, ?_, .inr rfl⟩)
    rw [text]
    simp only [Operand.definition, brace, List.cons_append]
  | everything named =>
    refine .composed (.inr ⟨c, rest, ?_, sign.2, sign.1⟩)
    rw [text]
    simp only [Operand.definition, named]
    rfl
  | led visible other named =>
    rw [Operand.definition, named, List.cons_append] at text
    exact .led visible other text
  | composed named =>
    refine .composed ?_
    rw [text]
    exact named.append _

/-- Only two enumerated sets are combined element by element. -/
theorem combine_eq (op : Operation) {a b : Operand} (ha : k.Fits a.set) (hb : l.Fits b.set) :
    (k = .enumerated ∧ l = .enumerated ∧
        ∃ x y, SetAlgebra.combine op a b = Enumerated.combine op a.label x b.label y) ∨
      ¬ (k = .enumerated ∧ l = .enumerated) ∧
        SetAlgebra.combine op a b = Symbolic.combine op a b := by
  obtain ⟨label, set⟩ := a
  obtain ⟨label', set'⟩ := b
  cases set with
  | finite x =>
    cases set' with
    | finite y => exact .inl ⟨(fits_finite _ _).mp ha, (fits_finite _ _).mp hb, x, y, rfl⟩
    | symbolic y => exact .inr ⟨fun both => hb.ne_enumerated both.2, rfl⟩
  | symbolic x => exact .inr ⟨fun both => ha.ne_enumerated both.1, rfl⟩

/-! ### Operations -/

variable {a b : Operand}

theorem fits_union (ha : k.Fits a.set) (hb : l.Fits b.set)
    (symbolic : ¬ (k = enumerated ∧ l = enumerated)) :
    (combine .union k l).Fits (.symbolic (Symbolic.union a b)) := by
  have universal : (a.isUniversal || b.isUniversal) = true ↔ k = everything ∨ l = everything := by
    rw [Bool.or_eq_true, ha.isUniversal_iff, hb.isUniversal_iff]
  simp only [combine, if_neg symbolic]
  by_cases all : k = everything ∨ l = everything
  · have whole : Symbolic.union a b = Symbolic.everything := if_pos (universal.mpr all)
    rw [if_pos all, whole]
    exact .everything rfl
  · have composed : Symbolic.union a b = ⟨a.definition ++ " ∪ " ++ b.definition, _, _,
      Symbolic.either a.set.test b.set.test⟩ := if_neg (mt universal.mp all)
    rw [if_neg all, composed]
    exact fits_lead ha (c := '∪') (by decide) (Symbolic.toList_composed _ _ _ _)

theorem fits_intersection (ha : k.Fits a.set) (hb : l.Fits b.set) :
    (combine .intersection k l).Fits (Symbolic.intersection a b) := by
  unfold Symbolic.intersection
  split
  next left =>
    rw [left, fits_finite] at ha
    subst ha
    exact .enumerated _
  next right _ =>
    rw [right, fits_finite] at hb
    rw [combine, if_pos (.inr hb)]
    exact .enumerated _
  next left right =>
    have neither : ¬ (k = enumerated ∨ l = enumerated) := by
      rintro (rfl | rfl)
      · obtain ⟨elements, listed⟩ := exists_of_fits_enumerated ha
        exact left elements listed
      · obtain ⟨elements, listed⟩ := exists_of_fits_enumerated hb
        exact right elements listed
    rw [combine, if_neg neither]
    exact fits_lead ha (c := '∩') (by decide) (Symbolic.toList_composed _ _ _ _)

theorem fits_difference (ha : k.Fits a.set) (l : Kind) :
    (combine .difference k l).Fits (Symbolic.difference a b) := by
  unfold Symbolic.difference
  split
  next left =>
    rw [left, fits_finite] at ha
    subst ha
    exact .enumerated _
  next left =>
    have other : k ≠ enumerated := by
      rw [left] at ha
      exact ha.ne_enumerated
    rw [combine, if_neg other]
    exact fits_lead ha (c := '-') (by decide) (Symbolic.toList_composed _ _ _ _)

theorem fits_complement (k : Kind) (a : Operand) (hb : l.Fits b.set) :
    (combine .complement k l).Fits (Symbolic.complement a b) := by
  unfold Symbolic.complement
  split
  next universal =>
    have all := hb.isUniversal_iff.mp universal
    have other : l ≠ enumerated := by
      rw [all]
      decide
    rw [combine, if_neg other]
    exact fits_lead hb (c := '-') (by decide) (Symbolic.toList_composed _ _ _ _)
  next => exact fits_difference hb k

theorem fits_symmetricDifference (a b : Operand) (symbolic : ¬ (k = enumerated ∧ l = enumerated)) :
    (combine .symmetricDifference k l).Fits (.symbolic (Symbolic.symmetricDifference a b)) := by
  have opened : ∃ rest, (Symbolic.symmetricDifference a b).definition.toList = '(' :: rest := by
    simp only [Symbolic.symmetricDifference, String.toList_append]
    exact ⟨_, rfl⟩
  obtain ⟨rest, text⟩ := opened
  simp only [combine, if_neg symbolic]
  exact .composed (.inl ⟨'(', rest, text, .inl rfl⟩)

/-- The value of an operation is of the kind that the kinds of its operands give. -/
theorem fits_combine {op : Operation} {set : StoredSet} (ha : k.Fits a.set)
    (hb : l.Fits b.set) (value : SetAlgebra.combine op a b = .set set) :
    (combine op k l).Fits set := by
  rcases combine_eq op ha hb with ⟨rfl, rfl, x, y, eq⟩ | ⟨symbolic, eq⟩
  · rw [eq] at value
    cases op <;> cases value <;> exact .enumerated _
  · rw [eq] at value
    cases op with
    | union =>
      cases value
      exact fits_union ha hb symbolic
    | intersection =>
      cases value
      exact fits_intersection ha hb
    | difference =>
      cases value
      exact fits_difference ha l
    | symmetricDifference =>
      cases value
      exact fits_symmetricDifference a b symbolic
    | complement =>
      cases value
      exact fits_complement k a hb
    | subset => cases value

/-! ### Terms -/

theorem fits_ofSet {set : SymbolicSet} (c : Char) (symbol : Text.isBlank c = false ∧ c ≠ 'U')
    (definition : set.definition.toList.take 4 = [c, ' ', '=', ' ']) :
    (ofSet (.symbolic set)).Fits (.symbolic set) := by
  obtain ⟨rest, text⟩ : ∃ rest, set.definition.toList = c :: ' ' :: '=' :: ' ' :: rest := by
    refine ⟨set.definition.toList.drop 4, ?_⟩
    rw [← List.take_append_drop 4 set.definition.toList, definition]
    simp
  have label : set.label = String.singleton c := label_of_symbol symbol.1 text
  have modest : Modest set.definition.toList := text ▸ modest_of_head symbol.1 symbol.2
  obtain ⟨short, long⟩ := modest.label
  have other : set.isUniversal = false := by
    simp [SymbolicSet.isUniversal, SymbolicSet.label, short, long]
  simp only [ofSet, other, label]
  exact .led symbol.1 symbol.2 text

theorem definitions_predefined : predefined.map (·.2.definition.toList.take 4) =
    [['ℕ', ' ', '=', ' '], ['ℤ', ' ', '=', ' '], ['ℚ', ' ', '=', ' '], ['ℝ', ' ', '=', ' '],
      ['E', ' ', '=', ' '], ['O', ' ', '=', ' '], ['P', ' ', '=', ' '], ['U'],
      ['ℂ', ' ', '=', ' ']] := by
  decide

theorem fits_predefined {name : String} {set : SymbolicSet} (member : (name, set) ∈ predefined) :
    (ofSet (.symbolic set)).Fits (.symbolic set) := by
  have listed := List.mem_map_of_mem (f := (·.2.definition.toList.take 4)) member
  rw [definitions_predefined] at listed
  simp only [List.mem_cons, List.not_mem_nil, or_false] at listed
  rcases listed with h | h | h | h | h | h | h | h | h
  case inr.inr.inr.inr.inr.inr.inr.inl =>
    have named : set.definition = "U" := by
      refine String.toList_injective ?_
      have short : set.definition.toList.length ≤ 4 := by
        have := congrArg List.length h
        simp only [List.length_take, List.length_singleton] at this
        omega
      rw [List.take_of_length_le short] at h
      exact h
    have universal : set.isUniversal = true := by
      simp only [SymbolicSet.isUniversal, SymbolicSet.label, named]
      decide
    rw [ofSet, if_pos universal]
    exact .everything named
  all_goals exact fits_ofSet _ (by decide) h

end Kind

def Term.kind (registry : Registry) : Term → Kind
  | name letter => (registry.get? letter).elim .composed .ofSet
  | complement t =>
    .combine .complement (t.kind registry) ((registry.get? universeName).elim .composed .ofSet)
  | binary op _ l r => .combine op (l.kind registry) (r.kind registry)

theorem Registry.Predefined.fits {registry : Registry} (h : registry.Predefined) {name : String}
    {set : StoredSet} (found : registry.get? name = some set) : (Kind.ofSet set).Fits set := by
  cases set with
  | finite elements => exact (Kind.fits_finite _ _).mpr rfl
  | symbolic set =>
    exact Kind.fits_predefined (h name set found)

/-- The set of a term is of the kind of the term. -/
theorem Term.fits_kind {registry : Registry} (h : registry.Predefined) {t : Term} {x : Operand}
    (value : t.operand? registry = some x) : (t.kind registry).Fits x.set := by
  induction t generalizing x with
  | name letter =>
    obtain ⟨set, found, rfl⟩ := Option.map_eq_some_iff.mp value
    simpa [kind, found] using h.fits found
  | complement t ih =>
    simp only [operand?, bind, Option.bind_eq_some_iff] at value
    obtain ⟨y, inner, whole, found, value⟩ := value
    obtain ⟨set, combined, rfl⟩ := Value.operand?_eq_some value
    simp only [kind, found]
    exact Kind.fits_combine (b := ⟨universeName, whole⟩) (ih inner) (h.fits found) combined
  | binary op proper l r ihLeft ihRight =>
    simp only [operand?, bind, Option.bind_eq_some_iff] at value
    obtain ⟨y, first, z, second, value⟩ := value
    obtain ⟨set, combined, rfl⟩ := Value.operand?_eq_some value
    exact Kind.fits_combine (ihLeft first) (ihRight second) combined

end DiscreteMath.SetAlgebra
