import DiscreteMath.Proofs.SetAlgebra.ElementEquality
import DiscreteMath.SetAlgebra.Hashing

/-!
# Equality and hashing

Two collections are equal when the members of one can be put in an order in which each equals its
counterpart in the other; the first partner that comes along always does. Of equal elements the same
is written to a hasher, as long as this is so of numbers. Hence a table finds every element that it
holds an equal of, and it keeps the first of equal ones.
-/

namespace DiscreteMath.SetAlgebra

/-! ### Collections -/

/-- Taking the first partner at each step finds partners for all, in some order. -/
theorem exists_perm_of_matchingBy {r : α → α → Bool} {as bs : List α}
    (length : as.length = bs.length) (matched : matchingBy r as bs = true) :
    ∃ cs, cs.Perm bs ∧ List.Forall₂ (fun a c => r a c = true) as cs := by
  induction as generalizing bs with
  | nil => exact ⟨[], by rw [List.eq_nil_of_length_eq_zero length.symm], .nil⟩
  | cons a as ih =>
    simp only [matchingBy] at matched
    split at matched
    next rest removed =>
      obtain ⟨b, same, perm⟩ := perm_of_removeFirst? removed
      have shorter := perm.length_eq
      simp only [List.length_cons] at length shorter
      obtain ⟨cs, others, paired⟩ := ih (by omega) matched
      exact ⟨b :: cs, (others.cons b).trans perm.symm, .cons same paired⟩
    next => cases matched

namespace Element

/-- Equal members at equal places count every element alike. -/
theorem countP_eq_of_forall₂ {as bs : List Element}
    (same : List.Forall₂ (fun a b => (a == b) = true) as bs) (x : Element) :
    as.countP (x == ·) = bs.countP (x == ·) := by
  induction same with
  | nil => rfl
  | cons first _ ih => rw [List.countP_cons, List.countP_cons, ih, beq_congr first]

/-- Collections are equal when some order of the second matches the first place by place. -/
theorem collection_beq_iff (as bs : List Element) :
    (collection as == collection bs) = true ↔
      ∃ cs, cs.Perm bs ∧ List.Forall₂ (fun a c => (a == c) = true) as cs := by
  constructor
  · intro h
    have h : same (collection as) (collection bs) = true := h
    rw [same, Bool.and_eq_true, beq_iff_eq, matching_eq] at h
    exact exists_perm_of_matchingBy h.1 h.2
  · rintro ⟨cs, perm, paired⟩
    exact (same_collection_iff as bs).mpr fun x =>
      (countP_eq_of_forall₂ paired x).trans (perm.countP_eq _)

/-! ### What is written -/

variable {h : Hasher}

theorem digestSum_perm {as bs : List Element} (perm : as.Perm bs) :
    digestSum h as = digestSum h bs := by
  induction perm with
  | nil => rfl
  | cons x _ ih => rw [digestSum, digestSum, ih]
  | swap x y rest =>
    simp only [digestSum]
    rw [← UInt64.add_assoc, ← UInt64.add_assoc, UInt64.add_comm (h.digest _)]
  | trans _ _ first second => exact first.trans second

theorem digestSum_eq_of_forall₂ {as bs : List Element}
    (same : List.Forall₂ (fun a b => a.written h = b.written h) as bs) :
    digestSum h as = digestSum h bs := by
  induction same with
  | nil => rfl
  | cons first _ ih => rw [digestSum, digestSum, first, ih]

/-- Of equal elements the same is written. -/
theorem written_eq_of_beq (respects : ∀ a b, sameNumber a b = true → h.number a = h.number b)
    {x y : Element} (same : (x == y) = true) : x.written h = y.written h := by
  induction size : sizeOf x using Nat.strong_induction_on generalizing x y with
  | _ n ih =>
    cases (same_iff_alike x y).mp same with
    | number alike => rw [written, written, respects _ _ ((sameNumber_iff _ _).mpr alike)]
    | text => rfl
    | reference => rfl
    | @collection as bs alike =>
      obtain ⟨cs, perm, paired⟩ := (collection_beq_iff as bs).mp alike
      have members : List.Forall₂ (fun a c => a.written h = c.written h) as cs := by
        refine (List.forall₂_iff_get.mpr ⟨paired.length_eq, fun i left right => ?_⟩)
        have := List.sizeOf_get as ⟨i, left⟩
        refine ih _ ?_ (paired.get left right) rfl
        rw [← size, collection.sizeOf_spec]
        omega
      rw [written, written, digestSum_eq_of_forall₂ members, digestSum_perm perm]

end Element

/-! ### Taking out repetitions -/

/-- Which elements are taken out depends on what the earlier ones hold. -/
theorem distinctFrom_congr {seen seen' : List Element} (same : ∀ x, holds seen x = holds seen' x)
    (elements : List Element) : distinctFrom seen elements = distinctFrom seen' elements := by
  induction elements generalizing seen seen' with
  | nil => rfl
  | cons y rest ih =>
    have next := @ih (y :: seen) (y :: seen') fun x => by simp [same]
    simp only [distinctFrom, same, ih same, next]

theorem distinctFrom_concat (seen elements : List Element) (x : Element) :
    distinctFrom seen (elements ++ [x]) =
      distinctFrom seen elements ++ if holds (seen ++ elements) x then [] else [x] := by
  induction elements generalizing seen with
  | nil => simp [distinctFrom]
  | cons y rest ih =>
    simp only [List.cons_append, distinctFrom]
    split
    next held =>
      -- An element equal to `y` is held by what has been seen.
      have known : (y == x) = true → holds seen x = true := fun same =>
        (respects_holds seen y x same).symm.trans held
      rw [ih]
      grind [holds_append, holds_cons]
    next =>
      rw [ih]
      grind [holds_append, holds_cons]

/-- Without repetitions there are those elements to which no earlier one is equal, in their
order. -/
theorem distinct_eq_filter (elements : List Element) :
    distinct elements =
      (elements.zipIdx.filter fun (x, i) => !holds (elements.take i) x).map Prod.fst := by
  induction elements using List.reverseRecOn with
  | nil => rfl
  | append_singleton front x ih =>
    have before : ∀ entry ∈ front.zipIdx,
        (!holds ((front ++ [x]).take entry.2) entry.1) = !holds (front.take entry.2) entry.1 := by
      intro entry member
      have := List.snd_lt_of_mem_zipIdx member
      rw [List.take_append_of_le_length (by omega)]
    rw [distinct, distinctFrom_concat, ← distinct, ih, List.zipIdx_append, List.filter_append,
      List.filter_congr before]
    cases held : holds front x <;> simp [held]

theorem collect_eq_distinct {h : Hasher}
    (respects : ∀ a b, Element.sameNumber a b = true → h.number a = h.number b)
    (hash : List Write → UInt64) (elements : List Element) :
    Table.collect h hash elements = distinct elements := by
  have found (table : List Element) (x : Element) :
      (table.any fun y => hash (y.written h) == hash (x.written h) && y == x) = holds table x := by
    refine List.any_congr rfl fun y => ?_
    cases same : y == x with
    | false => simp
    | true => simp [Element.written_eq_of_beq respects same]
  have run (table : List Element) :
      elements.foldl (Table.insert h hash) table = table ++ distinctFrom table elements := by
    induction elements generalizing table with
    | nil => simp [distinctFrom]
    | cons x rest ih =>
      rw [List.foldl_cons, ih, Table.insert, found, distinctFrom]
      split
      · rfl
      · rw [List.append_assoc, List.singleton_append]
        exact congrArg (table ++ x :: ·)
          (distinctFrom_congr (fun y => by simp [Bool.or_comm]) rest)
  exact run []

/-- Equality of elements is an equivalence, and finding the first partner at each step finds an
order in which two collections match if there is one. If equal numbers are written alike to a
hasher, so are equal elements; therefore a table, whatever hash it goes by, keeps of given elements
those to which no earlier one is equal. -/
theorem equality_and_hash (h : Hasher)
    (respects : ∀ a b, Element.sameNumber a b = true → h.number a = h.number b) :
    (∀ x : Element, (x == x) = true) ∧
      (∀ x y : Element, (x == y) = true → (y == x) = true) ∧
      (∀ x y z : Element, (x == y) = true → (y == z) = true → (x == z) = true) ∧
      (∀ as bs, (Element.collection as == Element.collection bs) = true ↔
        ∃ cs, cs.Perm bs ∧ List.Forall₂ (fun a c => (a == c) = true) as cs) ∧
      (∀ x y : Element, (x == y) = true → x.written h = y.written h) ∧
      ∀ hash elements, Table.collect h hash elements = distinct elements ∧
        distinct elements =
          (elements.zipIdx.filter fun (x, i) => !holds (elements.take i) x).map Prod.fst :=
  ⟨Element.same_refl, fun x y same => (Element.same_comm y x).trans same,
    fun _ _ _ => Element.beq_trans, Element.collection_beq_iff,
    fun _ _ => Element.written_eq_of_beq respects,
    fun hash elements => ⟨collect_eq_distinct respects hash elements, distinct_eq_filter elements⟩⟩

/-- The two zeros are written alike, and the digest is a polynomial in how much is written. -/
def Hasher.polynomial : Hasher where
  number x := [.word (if x == 0 then 0 else x.toBits)]
  digest := List.foldl (fun state write => 31 * state + match write with
    | .byte value => value.toUInt64
    | .index value => UInt64.ofInt value
    | .word value => value
    | .text content => content.length.toUInt64) 7

/-- Neither the sign of zero nor the order of members keeps elements apart. -/
theorem equality_and_hash_zeros :
    (∀ a b, Element.sameNumber a b = true →
        Hasher.polynomial.number a = Hasher.polynomial.number b) ∧
      (Element.collection [.number 0, .text "a"] ==
        .collection [.text "a", .number (-0)]) = true ∧
      (Element.collection [.number 0, .text "a"]).written .polynomial =
        (Element.collection [.text "a", .number (-0)]).written .polynomial ∧
      Table.collect .polynomial Hasher.polynomial.digest [.collection [.number 0, .text "a"],
          .text "a", .collection [.text "a", .number (-0)]] =
        [.collection [.number 0, .text "a"], .text "a"] := by
  have respects : ∀ a b, Element.sameNumber a b = true →
      Hasher.polynomial.number a = Hasher.polynomial.number b := by
    intro a b same
    rcases (Element.sameNumber_iff a b).mp same with rfl | ⟨left, right⟩
    · rfl
    · rw [← Number.beq_zero_iff] at left right
      simp [Hasher.polynomial, left, right]
  have zeros : (Element.number 0 == .number (-0)) = true :=
    (Element.same_iff_alike _ _).mpr (.number (.inr ⟨⟨_, rfl⟩, _, rfl⟩))
  obtain ⟨refl, -, -, sameMembers, written, collected⟩ := equality_and_hash .polynomial respects
  have same : (Element.collection [.number 0, .text "a"] ==
      .collection [.text "a", .number (-0)]) = true :=
    (sameMembers _ _).mpr ⟨[.number (-0), .text "a"], .swap .., .cons zeros (.cons (refl _) .nil)⟩
  have apart : (Element.collection [.number 0, .text "a"] == .text "a") = false := rfl
  refine ⟨respects, same, written _ _ same, (collected _ _).1.trans ?_⟩
  simp [distinct, distinctFrom, same, apart]

end DiscreteMath.SetAlgebra
