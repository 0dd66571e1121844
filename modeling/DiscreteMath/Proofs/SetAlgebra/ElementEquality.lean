import DiscreteMath.Proofs.Number.FloatEquality
import DiscreteMath.SetAlgebra.Element

/-!
# Equality of elements

Equality of elements is an equivalence, and two collections are equal when they hold the same
number of members equal to each element.

## Main definitions

* `EquivalenceOn` — a test that is an equivalence among the elements of some kind.
* `Respects` — a function that gives equal elements the same value.
-/

namespace DiscreteMath.SetAlgebra

/-! ### Taking partners out of a list -/

section Partners

variable {p : α → Bool} {xs rest : List α}

theorem perm_of_removeFirst? (removed : removeFirst? p xs = some rest) :
    ∃ x, p x = true ∧ xs.Perm (x :: rest) := by
  induction xs generalizing rest with
  | nil => cases removed
  | cons x xs ih =>
    simp only [removeFirst?] at removed
    split at removed
    next accepted =>
      cases removed
      exact ⟨x, accepted, .refl _⟩
    next =>
      simp only [Option.map_eq_some_iff] at removed
      obtain ⟨rest, removed, rfl⟩ := removed
      obtain ⟨y, accepted, perm⟩ := ih removed
      exact ⟨y, accepted, (perm.cons x).trans (.swap y x rest)⟩

theorem removeFirst?_eq_none : removeFirst? p xs = none ↔ ∀ x ∈ xs, p x = false := by
  induction xs with
  | nil => simp [removeFirst?]
  | cons x xs ih => cases accepted : p x <;> simp [removeFirst?, accepted, ih]

end Partners

/-- A test that is an equivalence among the elements of which `p` holds. -/
structure EquivalenceOn (r : α → α → Bool) (p : α → Prop) : Prop where
  refl {x} : p x → r x x = true
  symm {x y} : p x → p y → r x y = true → r y x = true
  trans {x y z} : p x → p y → p z → r x y = true → r y z = true → r x z = true

namespace EquivalenceOn

variable {r : α → α → Bool} {p : α → Prop} {x y z : α}

theorem eq_of_eq (h : EquivalenceOn r p) (hx : p x) (hy : p y) (hz : p z) (same : r y z = true) :
    r x y = r x z := by
  rw [Bool.eq_iff_iff]
  exact ⟨fun left => h.trans hx hy hz left same,
    fun right => h.trans hx hz hy right (h.symm hy hz same)⟩

end EquivalenceOn

def matchingBy (r : α → α → Bool) : List α → List α → Bool
  | [], _ => true
  | a :: as, bs =>
    match removeFirst? (r a) bs with
    | some rest => matchingBy r as rest
    | none => false

/-- Lists of the same length match when each element has equally many equals in both. -/
theorem matchingBy_iff_countP {r : α → α → Bool} {p : α → Prop} (h : EquivalenceOn r p)
    {as bs : List α} (left : ∀ a ∈ as, p a) (right : ∀ b ∈ bs, p b) :
    as.length = bs.length ∧ matchingBy r as bs = true ↔
      ∀ x, p x → as.countP (r x) = bs.countP (r x) := by
  induction as generalizing bs with
  | nil =>
    constructor
    · rintro ⟨length, -⟩ x -
      rw [List.eq_nil_of_length_eq_zero length.symm]
    · intro counts
      cases bs with
      | nil => exact ⟨rfl, rfl⟩
      | cons b bs =>
        have known : p b := right b List.mem_cons_self
        have := counts b known
        simp [h.refl known] at this
  | cons a as ih =>
    have known : p a := left a List.mem_cons_self
    have left' : ∀ a ∈ as, p a := fun b member => left b (List.mem_cons_of_mem a member)
    cases removed : removeFirst? (r a) bs with
    | none =>
      rw [removeFirst?_eq_none] at removed
      constructor
      · rintro ⟨-, matched⟩
        simp only [matchingBy] at matched
        rw [removeFirst?_eq_none.mpr removed] at matched
        cases matched
      · intro counts
        have none : bs.countP (r a) = 0 := by
          rw [List.countP_eq_zero]
          simpa using removed
        have := counts a known
        simp [h.refl known, none] at this
    | some rest =>
      obtain ⟨b, same, perm⟩ := perm_of_removeFirst? removed
      have right' : ∀ c ∈ b :: rest, p c := fun c member => right c (perm.mem_iff.mpr member)
      have ih := ih left' fun c member => right' c (List.mem_cons_of_mem b member)
      have lengths := perm.length_eq
      have step (x : α) (hx : p x) :
          (a :: as).countP (r x) = bs.countP (r x) ↔ as.countP (r x) = rest.countP (r x) := by
        rw [perm.countP_eq, List.countP_cons, List.countP_cons,
          h.eq_of_eq hx known (right' b List.mem_cons_self) same]
        omega
      simp only [matchingBy, removed]
      constructor
      · rintro ⟨length, matched⟩ x hx
        simp only [List.length_cons] at length lengths
        exact (step x hx).mpr (ih.mp ⟨by omega, matched⟩ x hx)
      · intro counts
        obtain ⟨length, matched⟩ := ih.mpr fun x hx => (step x hx).mp (counts x hx)
        exact ⟨by simp [length, lengths], matched⟩

namespace Element

/-- Numbers are the same when they are one float or two zeros. -/
theorem sameNumber_iff (a b : Float) :
    sameNumber a b = true ↔ a = b ∨ Number.IsZero a ∧ Number.IsZero b := by
  rw [sameNumber, Bool.or_eq_true, Bool.and_eq_true, Number.beq_iff]
  constructor
  · rintro ((⟨same, -⟩ | zeros) | ⟨left, right⟩)
    · exact .inl same
    · exact .inr zeros
    · exact .inl (Number.eq_of_isNaN left right)
  · rintro (rfl | zeros)
    · cases undefined : a.isNaN
      · exact .inl (.inl ⟨rfl, rfl⟩)
      · exact .inr ⟨rfl, rfl⟩
    · exact .inl (.inr zeros)

theorem matching_eq (as bs : List Element) : matching as bs = matchingBy same as bs := by
  induction as generalizing bs with
  | nil => simp [matching, matchingBy]
  | cons a as ih =>
    simp only [matching, matchingBy]
    cases removeFirst? (same a) bs with
    | none => rfl
    | some rest => exact ih rest

/-- Collections below a size are the same when they count every element alike. -/
theorem same_collection_of {p : Element → Prop} (h : EquivalenceOn same p) {as bs : List Element}
    (left : ∀ a ∈ as, p a) (right : ∀ b ∈ bs, p b) :
    same (collection as) (collection bs) = true ↔
      ∀ x, p x → as.countP (same x) = bs.countP (same x) := by
  rw [← matchingBy_iff_countP h left right, ← matching_eq]
  simp [same]

inductive Alike : Element → Element → Prop
  | number {a b : Float} : a = b ∨ Number.IsZero a ∧ Number.IsZero b → Alike (number a) (number b)
  | text (content : String) : Alike (text content) (text content)
  | reference (name : String) : Alike (reference name) (reference name)
  | collection {as bs : List Element} :
      same (collection as) (collection bs) = true → Alike (collection as) (collection bs)

theorem same_iff_alike (x y : Element) : same x y = true ↔ Alike x y := by
  constructor
  · intro h
    cases x <;> cases y <;> try simp [same] at h
    case number.number => exact .number ((sameNumber_iff _ _).mp h)
    case text.text => subst h; exact .text _
    case reference.reference => subst h; exact .reference _
    case collection.collection => exact .collection (by simpa [same] using h)
  · rintro (alike | _ | _ | alike)
    · rwa [same, sameNumber_iff]
    · simp [same]
    · simp [same]
    · exact alike

theorem equivalenceOn_size (n : Nat) : EquivalenceOn same fun x => sizeOf x < n := by
  induction n with
  | zero =>
    exact ⟨(absurd · (Nat.not_lt_zero _)), (absurd · (Nat.not_lt_zero _)),
      (absurd · (Nat.not_lt_zero _))⟩
  | succ n ih =>
    have inside {members : List Element} (small : sizeOf (collection members) < n + 1) :
        ∀ x ∈ members, sizeOf x < n := by
      intro x member
      have := List.sizeOf_lt_of_mem member
      simp only [collection.sizeOf_spec] at small
      omega
    refine ⟨?_, ?_, ?_⟩
    · intro x hx
      cases x with
      | number a => simp [same, sameNumber_iff]
      | text a => simp [same]
      | reference a => simp [same]
      | collection as =>
        rw [same_collection_of ih (inside hx) (inside hx)]
        exact fun _ _ => rfl
    · intro x y hx hy left
      rw [same_iff_alike] at left ⊢
      cases left with
      | number alike => exact .number (alike.imp Eq.symm And.symm)
      | text content => exact .text content
      | reference name => exact .reference name
      | collection alike =>
        refine .collection ?_
        rw [same_collection_of ih (inside hx) (inside hy)] at alike
        rw [same_collection_of ih (inside hy) (inside hx)]
        exact fun z hz => (alike z hz).symm
    · intro x y z hx hy hz left right
      rw [same_iff_alike] at left right ⊢
      cases left with
      | number alike =>
        cases right with
        | number alike' =>
          refine .number ?_
          rcases alike with rfl | zeros
          · exact alike'
          · rcases alike' with rfl | zeros'
            · exact .inr zeros
            · exact .inr ⟨zeros.1, zeros'.2⟩
      | text content => exact right
      | reference name => exact right
      | collection alike =>
        cases right with
        | collection alike' =>
          refine .collection ?_
          rw [same_collection_of ih (inside hx) (inside hy)] at alike
          rw [same_collection_of ih (inside hy) (inside hz)] at alike'
          rw [same_collection_of ih (inside hx) (inside hz)]
          exact fun w hw => (alike w hw).trans (alike' w hw)

theorem same_refl (x : Element) : same x x = true :=
  (equivalenceOn_size (sizeOf x + 1)).refl (Nat.lt_succ_self _)

theorem equivalence : EquivalenceOn same fun _ => True where
  refl _ := same_refl _
  symm {x y} _ _ h :=
    (equivalenceOn_size (max (sizeOf x) (sizeOf y) + 1)).symm (by omega) (by omega) h
  trans {x y z} _ _ _ left right :=
    (equivalenceOn_size (max (sizeOf x) (max (sizeOf y) (sizeOf z)) + 1)).trans (by omega)
      (by omega) (by omega) left right

theorem same_comm (x y : Element) : same x y = same y x := by
  rw [Bool.eq_iff_iff]
  exact ⟨equivalence.symm trivial trivial, equivalence.symm trivial trivial⟩

/-- Collections are equal when they hold the same number of members equal to each element. -/
theorem same_collection_iff (as bs : List Element) :
    same (collection as) (collection bs) = true ↔
      ∀ x, as.countP (same x) = bs.countP (same x) := by
  rw [same_collection_of equivalence (fun _ _ => trivial) (fun _ _ => trivial)]
  exact ⟨fun h x => h x trivial, fun h x _ => h x⟩

end Element

def Respects (f : Element → β) : Prop := ∀ x y, (x == y) = true → f x = f y

theorem Element.beq_congr {x y : Element} (h : (x == y) = true) (z : Element) :
    (z == x) = (z == y) :=
  equivalence.eq_of_eq trivial trivial trivial h

theorem respects_holds (elements : List Element) : Respects (holds elements) := by
  intro x y h
  simp only [holds, Element.beq_congr h]

@[simp] theorem holds_nil (x : Element) : holds [] x = false := rfl

@[simp] theorem holds_cons (y : Element) (rest : List Element) (x : Element) :
    holds (y :: rest) x = (y == x || holds rest x) := rfl

@[simp] theorem holds_append (xs ys : List Element) (x : Element) :
    holds (xs ++ ys) x = (holds xs x || holds ys x) := List.any_append

theorem holds_of_mem {elements : List Element} {x : Element} (member : x ∈ elements) :
    holds elements x = true :=
  List.any_eq_true.mpr ⟨x, member, Element.same_refl x⟩

/-- What a filter keeps of a list, if it treats equal elements alike. -/
theorem holds_filter {p : Element → Bool} (h : Respects p) (elements : List Element) (x : Element) :
    holds (elements.filter p) x = (holds elements x && p x) := by
  induction elements with
  | nil => rfl
  | cons y rest ih =>
    cases same : y == x with
    | false => cases kept : p y <;> simp [kept, same, ih]
    | true =>
      have alike := h y x same
      cases kept : p y <;> rw [kept] at alike <;> simp [kept, same, ih, ← alike]

theorem Element.beq_trans {x y z : Element} (left : (x == y) = true) (right : (y == z) = true) :
    (x == z) = true := equivalence.trans trivial trivial trivial left right

theorem holds_distinctFrom (seen elements : List Element) (x : Element) :
    (holds seen x || holds (distinctFrom seen elements) x) =
      (holds seen x || holds elements x) := by
  induction elements generalizing seen with
  | nil => rfl
  | cons y rest ih =>
    simp only [distinctFrom]
    split
    next held =>
      rw [ih, holds_cons]
      cases same : y == x with
      | false => simp
      | true => simp [← respects_holds seen y x same, held]
    next =>
      have ih := ih (y :: seen)
      simp only [holds_cons] at ih ⊢
      grind

theorem distinctFrom_sublist (seen elements : List Element) :
    (distinctFrom seen elements).Sublist elements := by
  induction elements generalizing seen with
  | nil => exact .slnil
  | cons y rest ih =>
    simp only [distinctFrom]
    split
    · exact (ih seen).cons y
    · exact (ih (y :: seen)).cons_cons y

theorem distinct_sublist (elements : List Element) : (distinct elements).Sublist elements :=
  distinctFrom_sublist [] elements

/-- Taking repetitions out of a list leaves what it holds. -/
@[simp] theorem holds_distinct (elements : List Element) (x : Element) :
    holds (distinct elements) x = holds elements x := by
  simpa [distinct] using holds_distinctFrom [] elements x

theorem distinct_eq_nil {elements : List Element} : distinct elements = [] ↔ elements = [] := by
  refine ⟨fun none => List.eq_nil_iff_forall_not_mem.mpr fun x member => ?_, fun none => ?_⟩
  · have held := (holds_distinct elements x).trans (holds_of_mem member)
    rw [none] at held
    cases held
  · rw [none]
    rfl

end DiscreteMath.SetAlgebra
