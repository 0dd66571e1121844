import DiscreteMath.Proofs.Number.Multiplication
import DiscreteMath.Proofs.Number.Rounding
import DiscreteMath.Proofs.Result
import DiscreteMath.Sequence.Terms
import Mathlib

/-!
# Terms over a range

A range is evaluated to its terms in order with their sum and product, or it is refused for the
first reason that applies.

## Main definitions

* `Formula.Defined`, `Formula.Fails` — there is a term at an index, or why there is none.
* `Formula.sum`, `Formula.product` — over the indices below a bound.
* `Totals.Covers` — the totals are those of a range.
* `Evaluates`, `Refused` — a range has all its terms, or why it is refused.
-/

namespace DiscreteMath.Sequence

/-! ### Indices -/

theorem range_eq_cons {m n : Int} (some : m < n) : Int.range m n = m :: Int.range (m + 1) n := by
  have size : (n - m).toNat = (n - (m + 1)).toNat + 1 := by omega
  simp only [Int.range, size, List.range_succ_eq_map, List.map_cons, List.map_map]
  refine congrArg₂ List.cons (by simp) (List.map_congr_left fun r _ => ?_)
  simp only [Function.comp, Nat.cast_succ]
  omega

theorem range_add_succ (m : Int) (count : Nat) :
    Int.range m (m + (count + 1 : Nat)) = m :: Int.range (m + 1) (m + 1 + count) := by
  rw [range_eq_cons (by omega)]
  congr 2
  omega

theorem range_append {l m n : Int} (low : l ≤ m) (high : m ≤ n) :
    Int.range l m ++ Int.range m n = Int.range l n := by
  have size : (n - l).toNat = (m - l).toNat + (n - m).toNat := by omega
  simp only [Int.range, size, List.range_add, List.map_append, List.map_map]
  refine congrArg (_ ++ ·) (List.map_congr_left fun r _ => ?_)
  simp only [Function.comp, Nat.cast_add]
  omega

theorem range_succ {m n : Int} (low : m ≤ n) : Int.range m (n + 1) = Int.range m n ++ [n] := by
  rw [← range_append low (by omega : n ≤ n + 1), range_eq_cons (by omega : n < n + 1)]
  simp [Int.range]

@[simp] theorem range_self (m : Int) : Int.range m m = [] := by
  simp [Int.range]

/-- All indices of a range have a property, or there is a least one without it. -/
theorem forall_or_least (P : Int → Prop) (lower upper : Int) :
    (∀ k, lower ≤ k → k ≤ upper → P k) ∨
      ∃ k, lower ≤ k ∧ k ≤ upper ∧ (∀ j, lower ≤ j → j < k → P j) ∧ ¬P k := by
  by_cases all : ∀ k, lower ≤ k → k ≤ upper → P k
  · exact .inl all
  · push Not at all
    obtain ⟨k, ⟨low, high, fails⟩, least⟩ := Int.exists_least_of_bdd
      (P := fun k => lower ≤ k ∧ k ≤ upper ∧ ¬P k) ⟨lower, fun _ h => h.1⟩ all
    refine .inr ⟨k, low, high, fun j first last => ?_, fails⟩
    by_contra other
    have := least j ⟨first, by omega, other⟩
    omega

/-! ### Terms -/

namespace Formula

variable {f : Formula} {k : Int} {e : SequenceError}

def value (f : Formula) (k : Int) : Float := f.evaluate (Float.ofInt k)

/-- The index is exact as a float, and the value there is finite. -/
structure Defined (f : Formula) (k : Int) : Prop where
  exact : k.natAbs ≤ 2 ^ 53 - 1
  finite : (f.value k).isFinite = true

/-- Why there is no term at an index. -/
inductive Fails (f : Formula) (k : Int) : SequenceError → Prop
  | inexact : 2 ^ 53 - 1 < k.natAbs → Fails f k (.inexactIndex k)
  | nonFinite : k.natAbs ≤ 2 ^ 53 - 1 → (f.value k).isFinite = false →
      Fails f k (.nonFiniteTerm k)

theorem exactBound_eq : Number.exactBound = 2 ^ 53 - 1 := rfl

theorem Defined.term (defined : f.Defined k) : f.term k = .ok (f.value k) := by
  have exact := defined.exact
  rw [← exactBound_eq] at exact
  rw [Formula.term, Number.ofInteger?, if_pos exact]
  exact if_pos defined.finite

theorem Fails.term (fails : f.Fails k e) : f.term k = .error e := by
  rw [Formula.term, Number.ofInteger?]
  cases fails with
  | inexact large => rw [if_neg (by rw [exactBound_eq]; omega)]
  | nonFinite exact nonFinite =>
    rw [if_pos (by rw [exactBound_eq]; omega)]
    exact if_neg (by rw [← value, nonFinite]; decide)

theorem Fails.not_defined (fails : f.Fails k e) : ¬f.Defined k := by
  rintro ⟨exact, finite⟩
  cases fails with
  | inexact large => omega
  | nonFinite _ nonFinite => simp [nonFinite] at finite

theorem defined_or_fails (f : Formula) (k : Int) : f.Defined k ∨ ∃ e, f.Fails k e := by
  by_cases exact : k.natAbs ≤ 2 ^ 53 - 1
  · cases finite : (f.value k).isFinite with
    | true => exact .inl ⟨exact, finite⟩
    | false => exact .inr ⟨_, .nonFinite exact finite⟩
  · exact .inr ⟨_, .inexact (by omega)⟩

end Formula

/-! ### Sums and products -/

/-- A product with one more factor. A zero stays, and a product that overflows is clamped. -/
def multiply (product factor : Float) : Float :=
  if product == 0 then product
  else if (product * factor).isInf then
    if Number.isNegative (product * factor) then -Number.greatest else Number.greatest
  else product * factor

theorem isFinite_multiply {product factor : Float} (left : product.isFinite = true)
    (right : factor.isFinite = true) : (multiply product factor).isFinite = true := by
  have overflow := Number.isInf_mul left right
  unfold multiply
  split
  · exact left
  · split
    · split <;> decide +kernel
    · simp_all

namespace Formula

variable (f : Formula) {lower stop : Int}

def values (lower stop : Int) : List Float := (Int.range lower stop).map f.value

/-- The values at the indices from `lower` on, below `stop`, added from the left. -/
def sum (lower stop : Int) : Float := (f.values lower stop).foldl (· + ·) 0

def product (lower stop : Int) : Float := (f.values lower stop).foldl multiply 1

/-- The product of the values before an index overflows there. -/
def overflows (lower k : Int) : Bool :=
  !(f.product lower k == 0) && (f.product lower k * f.value k).isInf

@[simp] theorem sum_self (lower : Int) : f.sum lower lower = 0 := by
  simp [sum, values]

theorem sum_succ (low : lower ≤ stop) :
    f.sum lower (stop + 1) = f.sum lower stop + f.value stop := by
  simp [sum, values, range_succ low]

theorem isFinite_product (defined : ∀ k ∈ Int.range lower stop, f.Defined k) :
    (f.product lower stop).isFinite = true := by
  refine List.foldlRecOn (motive := fun x => Float.isFinite x = true) _ _ (by decide +kernel)
    fun x finite y member => ?_
  obtain ⟨k, index, rfl⟩ := List.mem_map.mp member
  exact isFinite_multiply finite (defined k index).finite

end Formula

namespace Totals

variable {f : Formula} {t : Totals} {k : Int} {ks : List Int}

def extend (f : Formula) (t : Totals) (ks : List Int) : Totals :=
  ks.foldl (fun t k => t.add k (f.value k)) t

@[simp] theorem extend_nil : extend f t [] = t := rfl

@[simp] theorem extend_cons : extend f t (k :: ks) = extend f (t.add k (f.value k)) ks := rfl

theorem extend_append (js : List Int) : extend f t (js ++ ks) = extend f (extend f t js) ks :=
  List.foldl_append

theorem add_terms (x : Float) : (t.add k x).terms = (k, x) :: t.terms := by
  unfold add
  grind

theorem add_sum (x : Float) : (t.add k x).sum = t.sum + x := by
  unfold add
  grind

/-- A product of finite factors that is not finite overflows. -/
theorem add_product {x : Float} (left : t.product.isFinite = true) (right : x.isFinite = true) :
    (t.add k x).product = multiply t.product x := by
  have overflow := Number.isInf_mul left right
  unfold add multiply
  grind

theorem add_clampedAt {x : Float} (left : t.product.isFinite = true) (right : x.isFinite = true) :
    (t.add k x).clampedAt =
      if !(t.product == 0) && (t.product * x).isInf then k :: t.clampedAt else t.clampedAt := by
  have overflow := Number.isInf_mul left right
  unfold add
  grind

theorem extend_terms :
    (extend f t ks).terms = (ks.map fun k => (k, f.value k)).reverse ++ t.terms := by
  induction ks generalizing t with
  | nil => rfl
  | cons k ks ih => simp [ih, add_terms]

theorem extend_sum : (extend f t ks).sum = (ks.map f.value).foldl (· + ·) t.sum := by
  induction ks generalizing t with
  | nil => rfl
  | cons k ks ih => simp [ih, add_sum]

theorem extend_product (finite : t.product.isFinite = true) (defined : ∀ k ∈ ks, f.Defined k) :
    (extend f t ks).product = (ks.map f.value).foldl multiply t.product := by
  induction ks generalizing t with
  | nil => rfl
  | cons k ks ih =>
    obtain ⟨first, others⟩ := List.forall_mem_cons.mp defined
    have step := add_product (k := k) finite first.finite
    have next : (t.add k (f.value k)).product.isFinite = true := by
      rw [step]
      exact isFinite_multiply finite first.finite
    rw [extend_cons, ih next others, step]
    rfl

theorem extend_clampedAt {lower stop : Int} (low : lower ≤ stop)
    (defined : ∀ k ∈ Int.range lower stop, f.Defined k) :
    (extend f empty (Int.range lower stop)).clampedAt =
      ((Int.range lower stop).filter (f.overflows lower)).reverse := by
  induction stop, low using Int.leInduction with
  | base => simp [empty]
  | succ stop low ih =>
    rw [range_succ low] at defined ⊢
    obtain ⟨before, last⟩ := List.forall_mem_append.mp defined
    have product : (extend f empty (Int.range lower stop)).product = f.product lower stop :=
      extend_product (by decide +kernel) before
    have finite := f.isFinite_product before
    rw [← product] at finite
    have step := add_clampedAt (k := stop) finite (last stop (List.mem_singleton_self stop)).finite
    rw [product] at step
    rw [extend_append, extend_cons, extend_nil, step, ih before, List.filter_append,
      List.reverse_append, List.filter_singleton]
    cases h : f.overflows lower stop <;> rw [Formula.overflows] at h <;> simp [h]

/-- The totals are those of the indices from `lower` to `upper`. -/
structure Covers (t : Totals) (f : Formula) (lower upper : Int) : Prop where
  terms : t.terms = (Int.range lower (upper + 1)).map fun k => (k, f.value k)
  sum : t.sum = f.sum lower (upper + 1)
  product : t.product = f.product lower (upper + 1)
  clampedAt : t.clampedAt = (Int.range lower (upper + 1)).filter (f.overflows lower)

theorem covers_extend {lower upper : Int} (nonempty : lower ≤ upper)
    (defined : ∀ k, lower ≤ k → k ≤ upper → f.Defined k) :
    (extend f empty (Int.range lower (upper + 1))).ascending.Covers f lower upper := by
  have defined : ∀ k ∈ Int.range lower (upper + 1), f.Defined k := by
    intro k member
    obtain ⟨low, high⟩ := Int.mem_range_iff.mp member
    exact defined k low (by omega)
  have clampedAt := extend_clampedAt (by omega : lower ≤ upper + 1) defined
  constructor
  · simp [ascending, extend_terms, empty]
  · exact extend_sum
  · exact extend_product (by decide +kernel) defined
  · simp [ascending, clampedAt]

end Totals

/-! ### Accumulating -/

section Accumulating

variable {f : Formula} {k : Int} {t : Totals} {e : SequenceError}

/-- The loop has added the terms at the indices that it has passed. -/
theorem accumulate_add {passed : Nat} (defined : ∀ j, k ≤ j → j < k + passed → f.Defined j)
    (count : Nat) (t : Totals) :
    accumulate f (passed + count) k t =
      accumulate f count (k + passed) (t.extend f (Int.range k (k + passed))) := by
  induction passed generalizing k t with
  | zero => simp
  | succ passed ih =>
    have first := defined k le_rfl (by omega)
    have others := ih (k := k + 1) (t := t.add k (f.value k))
      fun j low high => defined j (by omega) (by omega)
    rw [Nat.succ_add, accumulate, first.term]
    dsimp only
    rw [others, range_add_succ, Totals.extend_cons]
    congr 1
    omega

theorem accumulate_of_fails {i : Int} {count : Nat} (low : k ≤ i) (high : i < k + count)
    (before : ∀ j, k ≤ j → j < i → f.Defined j) (fails : f.Fails i e) :
    accumulate f count k t = (t.extend f (Int.range k i), some e) := by
  obtain ⟨passed, rfl⟩ := Int.le.dest low
  obtain ⟨left, rfl⟩ := Nat.exists_eq_add_of_lt (by omega : passed < count)
  rw [Nat.add_assoc, accumulate_add before, accumulate, fails.term]

end Accumulating

/-! ### Ranges -/

variable {limit : Option Nat} {text : List Char} {lower upper : Int} {f : Formula}
  {e : SequenceError}

structure Admitted (limit : Option Nat) (lower upper : Int) : Prop where
  nonempty : lower ≤ upper
  within : ∀ most, limit = some most → upper - lower + 1 ≤ most

/-- Every index of an admitted range has a term. -/
structure Evaluates (limit : Option Nat) (f : Formula) (lower upper : Int) : Prop
    extends Admitted limit lower upper where
  defined : ∀ k, lower ≤ k → k ≤ upper → f.Defined k

/-- Why a range is refused: the formula does not compile, the range is not admitted, or all indices
before some index have a term and that one does not. -/
inductive Refused (limit : Option Nat) (text : List Char) (lower upper : Int) :
    SequenceError → Prop
  | formula {e : SequenceError} : compile text = .error e → Refused limit text lower upper e
  | empty {f : Formula} : compile text = .ok f → upper < lower →
      Refused limit text lower upper (.invalidBounds lower upper)
  | long {f : Formula} {most : Nat} : compile text = .ok f → lower ≤ upper →
      limit = some most → most < upper - lower + 1 →
      Refused limit text lower upper (.tooManyTerms most)
  | index {f : Formula} {k : Int} {e : SequenceError} : compile text = .ok f →
      Admitted limit lower upper → lower ≤ k → k ≤ upper →
      (∀ j, lower ≤ j → j < k → f.Defined j) → f.Fails k e → Refused limit text lower upper e

theorem checkRange_eq_ok :
    checkRange limit lower upper = .ok () ↔ Admitted limit lower upper := by
  unfold checkRange rangeSize
  constructor
  · intro passed
    refine ⟨by_contra fun empty => ?_, fun most limited => by_contra fun long => ?_⟩
    · rw [if_pos (by omega)] at passed
      cases passed
    · subst limited
      split at passed
      · cases passed
      · dsimp only at passed
        rw [if_pos (by omega)] at passed
        cases passed
  · rintro ⟨nonempty, within⟩
    rw [if_neg (by omega)]
    cases limit with
    | none => rfl
    | some most =>
      have within := within most rfl
      exact if_neg (by omega)

theorem Admitted.mono {stop : Int} (admitted : Admitted limit lower upper) (nonempty : lower ≤ stop)
    (before : stop ≤ upper) : Admitted limit lower stop where
  nonempty
  within most limited := by
    have := admitted.within most limited
    omega

theorem Evaluates.mono {stop : Int} (evaluates : Evaluates limit f lower upper)
    (nonempty : lower ≤ stop) (before : stop ≤ upper) : Evaluates limit f lower stop where
  toAdmitted := evaluates.toAdmitted.mono nonempty before
  defined k low high := evaluates.defined k low (by omega)

theorem rangeSize_eq (nonempty : lower ≤ upper) : lower + rangeSize lower upper = upper + 1 := by
  unfold rangeSize
  omega

/-- A range that has all its terms is evaluated. -/
theorem Evaluates.summarize (evaluates : Evaluates limit f lower upper)
    (compiled : compile text = .ok f) : (summarize limit text lower upper).summary =
      .ok ⟨f, (Totals.empty.extend f (Int.range lower (upper + 1))).ascending⟩ := by
  have size := rangeSize_eq evaluates.nonempty
  have defined : ∀ j, lower ≤ j → j < lower + rangeSize lower upper → f.Defined j :=
    fun j low high => evaluates.defined j low (by omega)
  have run := accumulate_add defined 0 .empty
  rw [size, Nat.add_zero] at run
  rw [Sequence.summarize, compiled, checkRange_eq_ok.mpr evaluates.toAdmitted]
  simp [run, accumulate, pure, Except.pure, bind, Except.bind]

/-- A range is refused for the first reason that applies. -/
theorem Refused.summarize (refused : Refused limit text lower upper e) :
    (summarize limit text lower upper).summary = .error e := by
  rw [Sequence.summarize]
  cases refused with
  | formula failed => rw [failed]; rfl
  | empty compiled empty =>
    have refused : checkRange limit lower upper = .error (.invalidBounds lower upper) :=
      if_pos empty
    rw [compiled, refused]
    rfl
  | @long f most compiled nonempty limited long =>
    have size : most < rangeSize lower upper := by
      unfold rangeSize
      omega
    have excess : checkRange limit lower upper = .error (.tooManyTerms most) := by
      unfold checkRange
      rw [if_neg (by omega), limited]
      exact if_pos size
    rw [compiled, excess]
    rfl
  | @index f k e compiled admitted low high before fails =>
    have size := rangeSize_eq admitted.nonempty
    have reached : k < lower + rangeSize lower upper := by omega
    have run := accumulate_of_fails (t := .empty) low reached before fails
    rw [compiled, checkRange_eq_ok.mpr admitted]
    simp [run, pure, Except.pure, bind, Except.bind]

/-- Every range is evaluated or refused. -/
theorem evaluates_or_refused (limit : Option Nat) (text : List Char) (lower upper : Int) :
    (∃ f, compile text = .ok f ∧ Evaluates limit f lower upper) ∨
      ∃ e, Refused limit text lower upper e := by
  cases compiled : compile text with
  | error e => exact .inr ⟨e, .formula compiled⟩
  | ok f =>
    by_cases nonempty : lower ≤ upper
    swap; · exact .inr ⟨_, .empty compiled (by omega)⟩
    by_cases within : ∀ most, limit = some most → upper - lower + 1 ≤ most
    swap
    · push Not at within
      obtain ⟨most, limited, long⟩ := within
      exact .inr ⟨_, .long compiled nonempty limited long⟩
    have admitted : Admitted limit lower upper := ⟨nonempty, within⟩
    rcases forall_or_least f.Defined lower upper with defined | ⟨k, low, high, before, missing⟩
    · exact .inl ⟨f, rfl, admitted, defined⟩
    · obtain ⟨e, fails⟩ := (f.defined_or_fails k).resolve_left missing
      exact .inr ⟨e, .index compiled admitted low high before fails⟩

theorem Evaluates.covers (evaluates : Evaluates limit f lower upper) :
    (Totals.empty.extend f (Int.range lower (upper + 1))).ascending.Covers f lower upper :=
  Totals.covers_extend evaluates.nonempty evaluates.defined

theorem summarize_eq_ok {s : Summary} (ok : (summarize limit text lower upper).summary = .ok s) :
    compile text = .ok s.formula ∧ Evaluates limit s.formula lower upper ∧
      s.totals.Covers s.formula lower upper := by
  obtain ⟨f, compiled, evaluates⟩ | ⟨e, refused⟩ :=
    evaluates_or_refused limit text lower upper
  · rw [evaluates.summarize compiled] at ok
    cases ok
    exact ⟨compiled, evaluates, evaluates.covers⟩
  · rw [refused.summarize] at ok
    cases ok

theorem Totals.Covers.terms_prefix {t t' : Totals} {stop : Int} (covers : t.Covers f lower stop)
    (covers' : t'.Covers f lower upper) (nonempty : lower ≤ stop) (before : stop ≤ upper) :
    t.terms <+: t'.terms := by
  have low : lower ≤ stop + 1 := by omega
  have high : stop + 1 ≤ upper + 1 := by omega
  rw [covers.terms, covers'.terms, ← range_append low high, List.map_append]
  exact List.prefix_append _ _

/-- A range is evaluated exactly if the formula compiles, the range has an index but not more than
allowed, and every index has a term. Then the totals are those of the range. All other ranges are
refused, for the first reason that applies. The terms of a range that is evaluated begin with those
of each shorter range from the same index on, which is evaluated as well. -/
theorem summarize_spec (limit : Option Nat) (text : List Char) (lower upper : Int) :
    ((∃ s, (summarize limit text lower upper).summary = .ok s) ↔
      ∃ f, compile text = .ok f ∧ Evaluates limit f lower upper) ∧
    (∀ s, (summarize limit text lower upper).summary = .ok s →
      compile text = .ok s.formula ∧ s.totals.Covers s.formula lower upper ∧
      ∀ stop, lower ≤ stop → stop ≤ upper → ∃ s',
        (summarize limit text lower stop).summary = .ok s' ∧
        s'.totals.terms <+: s.totals.terms) ∧
    ∀ e, (summarize limit text lower upper).summary = .error e ↔
      Refused limit text lower upper e := by
  refine ⟨⟨?_, ?_⟩, ?_, fun e => ⟨?_, Refused.summarize⟩⟩
  · rintro ⟨s, ok⟩
    obtain ⟨compiled, evaluates, -⟩ := summarize_eq_ok ok
    exact ⟨s.formula, compiled, evaluates⟩
  · rintro ⟨f, compiled, evaluates⟩
    exact ⟨_, evaluates.summarize compiled⟩
  · intro s ok
    obtain ⟨compiled, evaluates, covers⟩ := summarize_eq_ok ok
    refine ⟨compiled, covers, fun stop nonempty before => ?_⟩
    have shorter := evaluates.mono nonempty before
    exact ⟨_, shorter.summarize compiled, shorter.covers.terms_prefix covers nonempty before⟩
  · intro failed
    obtain ⟨f, compiled, evaluates⟩ | ⟨e', refused⟩ :=
      evaluates_or_refused limit text lower upper
    · rw [evaluates.summarize compiled] at failed
      cases failed
    · rw [refused.summarize] at failed
      cases failed
      exact refused

/-- The product of the integers from `-2` to `1` stays zero. There is no `k/k` for zero. -/
theorem summarize_signs :
    (∃ s, (summarize (some 4) "k".toList (-2) 1).summary = .ok s ∧
      s.totals.terms.map Prod.fst = [-2, -1, 0, 1] ∧ s.totals.sum = -2 ∧ s.totals.product = 0 ∧
      ∃ s', (summarize (some 4) "k".toList (-2) 0).summary = .ok s' ∧
        s'.totals.terms <+: s.totals.terms) ∧
    (summarize none "k/k".toList (-2) 2).summary = .error (.nonFiniteTerm 0) := by
  have identity : compile "k".toList = .ok (.index 1) := by cbv
  have quotient : compile "k/k".toList = .ok (.binary (.index 1) .div (.index 3) 2) := by cbv
  have evaluates : Evaluates (some 4) (.index 1) (-2) 1 := by
    refine ⟨⟨by omega, fun most limited => by cases limited; omega⟩, fun k low high => ?_⟩
    obtain rfl | rfl | rfl | rfl : k = -2 ∨ k = -1 ∨ k = 0 ∨ k = 1 := by omega
    all_goals exact ⟨by decide, by decide +kernel⟩
  have refused : Refused none "k/k".toList (-2) 2 (.nonFiniteTerm 0) := by
    refine .index quotient ⟨by omega, by simp⟩ (by omega) (by omega) (fun j low high => ?_)
      (.nonFinite (by decide) (by decide +kernel))
    obtain rfl | rfl : j = -2 ∨ j = -1 := by omega
    all_goals exact ⟨by decide, by decide +kernel⟩
  obtain ⟨⟨-, succeeds⟩, exactly, -⟩ := summarize_spec (some 4) "k".toList (-2) 1
  obtain ⟨s, ok⟩ := succeeds ⟨_, identity, evaluates⟩
  obtain ⟨compiled, covers, shorter⟩ := exactly s ok
  have formula := Except.ok.inj (identity.symm.trans compiled)
  rw [← formula] at covers
  refine ⟨⟨s, ok, by rw [covers.terms, List.map_map]; rfl, ?_, ?_, shorter 0 (by omega) (by omega)⟩,
    ((summarize_spec none _ _ _).2.2 _).mpr refused⟩
  · exact covers.sum.trans (Number.toBits_injective (by decide +kernel))
  · exact covers.product.trans (Number.toBits_injective (by decide +kernel))

end DiscreteMath.Sequence
