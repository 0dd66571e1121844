import DiscreteMath.Number.Prime
import Mathlib

/-!
# Trial division decides primality

The loop stops at the first divisor whose square is greater than the number. Up to there the
divisor and its successor in the loop are far below `2 ^ 63`, so that no operation is left without
a result; and a number without a factor up to its square root is prime.

## Main definitions

* `Searched` — the invariant of the loop, on natural numbers.
-/

namespace DiscreteMath.Number

/-- Nothing from 2 up to the odd divisor `d`, itself left out, divides the odd number `n`. -/
structure Searched (n d : Nat) : Prop where
  odd : Odd n
  divisor : Odd d
  least : 3 ≤ d
  tried : d ≤ n.minFac

namespace Searched

variable {n d : Nat}

theorem start (odd : Odd n) (large : n ≠ 1) : Searched n 3 where
  odd := odd
  divisor := by decide
  least := le_rfl
  tried := by
    obtain ⟨k, factor⟩ : Odd n.minFac := odd.of_dvd_nat n.minFac_dvd
    have := (Nat.minFac_prime large).two_le
    omega

/-- A divisor is passed over together with the even number that follows it. -/
theorem next (searched : Searched n d) (fails : ¬d ∣ n) : Searched n (d + 2) where
  odd := searched.odd
  divisor := searched.divisor.add_even even_two
  least := Nat.le_add_right_of_le searched.least
  tried := by
    have tried := searched.tried
    have other : n.minFac ≠ d := fun same => fails (same ▸ n.minFac_dvd)
    obtain ⟨k, factor⟩ : Odd n.minFac := searched.odd.of_dvd_nat n.minFac_dvd
    obtain ⟨l, divisor⟩ := searched.divisor
    omega

/-- The least factor of a composite number is not above its square root. -/
theorem prime (searched : Searched n d) (small : n < d * d) : n.Prime := by
  by_contra composite
  have square := Nat.minFac_sq_le_self searched.odd.pos composite
  rw [sq] at square
  have := Nat.mul_le_mul searched.tried searched.tried
  omega

theorem not_prime (searched : Searched n d) (large : d * d ≤ n) (divides : d ∣ n) :
    ¬n.Prime := by
  intro prime
  have least := searched.least
  rcases prime.eq_one_or_self_of_dvd d divides with rfl | rfl
  · omega
  · have := Nat.mul_le_mul_right d least
    omega

end Searched

variable {n d q r next : Int64} {N D : Nat}

/-! ### One round -/

theorem noFactorFrom?_of_lt (quotient : Word.quotient? n d = some q) (small : ¬d ≤ q) :
    noFactorFrom? n d = some true := by
  rw [noFactorFrom?]
  simp [quotient, small]

theorem noFactorFrom?_of_factor (quotient : Word.quotient? n d = some q) (large : d ≤ q)
    (remainder : Word.remainder? n d = some 0) : noFactorFrom? n d = some false := by
  rw [noFactorFrom?]
  simp [quotient, large, remainder]

theorem noFactorFrom?_of_next (quotient : Word.quotient? n d = some q) (large : d ≤ q)
    (remainder : Word.remainder? n d = some r) (other : r ≠ 0)
    (sum : Word.sum? d 2 = some next) : noFactorFrom? n d = noFactorFrom? n next := by
  rw [noFactorFrom?]
  simp [quotient, large, remainder, other, sum]

theorem toInt_two : Int64.toInt 2 = (2 : Nat) := rfl

/-- The loop compares with the square root of the dividend, without a square that could overflow. -/
theorem le_quotient_iff (dividend : n.toInt = N) (divisor : d.toInt = D) (positive : 0 < D) :
    d ≤ n / d ↔ D * D ≤ N := by
  have exact : (n / d).toInt = n.toInt.tdiv d.toInt :=
    (Word.hasQuotient_iff.mp (Word.hasQuotient_of_pos (by omega))).2
  rw [Int64.le_iff_toInt_le, exact, dividend, divisor, ← Int.ofNat_tdiv, Int.ofNat_le,
    Nat.le_div_iff_mul_le positive]

theorem remainder_eq_zero_iff (dividend : n.toInt = N) (divisor : d.toInt = D) :
    n % d = 0 ↔ D ∣ N := by
  rw [← Int64.toInt_inj, Int64.toInt_mod, dividend, divisor, Int64.toInt_zero,
    ← Int.dvd_iff_tmod_eq_zero, Int.natCast_dvd_natCast]

/-- A divisor up to the square root has a successor in 64 bits. -/
theorem exists_next (dividend : n.toInt = N) (divisor : d.toInt = D) (least : 3 ≤ D)
    (large : D * D ≤ N) :
    ∃ next, Word.sum? d 2 = some next ∧ next.toInt = (D + 2 : Nat) := by
  have := n.toInt_le
  have := d.minValue_le_toInt
  have triple : 3 * D ≤ D * D := Nat.mul_le_mul_right D least
  have two := toInt_two
  obtain ⟨next, sum⟩ := Word.exists_sum? (a := d) (b := 2) (by omega) (by omega)
  have value := Word.sum?_eq_some_iff.mp sum
  exact ⟨next, sum, by omega⟩

/-! ### The loop -/

/-- Every operation has a result, and the loop finds out whether the number is prime. -/
theorem noFactorFrom?_eq (dividend : n.toInt = N) (divisor : d.toInt = D)
    (searched : Searched N D) : noFactorFrom? n d = some (decide N.Prime) := by
  -- The induction follows the divisors of the loop; `Searched` holds of each of them.
  induction d using noFactorFrom?.induct generalizing D with
  | case1 d ih =>
    have least := searched.least
    have quotient := Word.quotient?_of_pos (a := n) (b := d) (by omega)
    have remainder := Word.remainder?_of_pos (a := n) (b := d) (by omega)
    have bounded := le_quotient_iff dividend divisor (by omega)
    have divides := remainder_eq_zero_iff dividend divisor
    by_cases large : D * D ≤ N
    · by_cases factor : D ∣ N
      · rw [divides.mpr factor] at remainder
        rw [noFactorFrom?_of_factor quotient (bounded.mpr large) remainder,
          decide_eq_false (searched.not_prime large factor)]
      · obtain ⟨next, sum, value⟩ := exists_next dividend divisor least large
        rw [noFactorFrom?_of_next quotient (bounded.mpr large) remainder
          (mt divides.mp factor) sum]
        exact ih next sum value (searched.next factor)
    · rw [noFactorFrom?_of_lt quotient (mt bounded.mp large),
        decide_eq_true (searched.prime (Nat.lt_of_not_le large))]

/-! ### Primes -/

theorem remainder?_two : Word.remainder? n 2 = some (n % 2) := Word.remainder?_of_pos (by decide)

theorem isPrime?_of_lt (small : n < 2) : isPrime? n = some false := by
  simp [isPrime?, small]

theorem isPrime?_of_even (large : ¬n < 2) (even : n % 2 = 0) : isPrime? n = some (n == 2) := by
  simp [isPrime?, large, remainder?_two, even]

theorem isPrime?_of_odd (large : ¬n < 2) (odd : n % 2 ≠ 0) :
    isPrime? n = noFactorFrom? n 3 := by
  simp [isPrime?, large, remainder?_two, odd]

theorem prime_iff_of_even (even : Even N) : N.Prime ↔ N = 2 :=
  ⟨fun prime => prime.even_iff.mp even, fun two => two ▸ Nat.prime_two⟩

/-- There is an answer for every integer of 64 bits. -/
theorem isPrime?_eq (n : Int64) : isPrime? n = some (decide n.toInt.toNat.Prime) := by
  have small_iff : n < 2 ↔ n.toInt < 2 := Int64.lt_iff_toInt_lt
  by_cases small : n.toInt < 2
  · have composite : ¬n.toInt.toNat.Prime := fun prime => by
      have := prime.two_le
      omega
    rw [isPrime?_of_lt (small_iff.mpr small), decide_eq_false composite]
  obtain ⟨N, dividend⟩ : ∃ N : Nat, n.toInt = N := Int.eq_ofNat_of_zero_le (by omega)
  have even_iff : n % 2 = 0 ↔ Even N := by
    rw [remainder_eq_zero_iff dividend toInt_two, even_iff_two_dvd]
  rw [dividend, Int.toNat_natCast]
  by_cases even : Even N
  · have two_iff : n = 2 ↔ N = 2 := by
      rw [← Int64.toInt_inj, dividend, toInt_two, Nat.cast_inj]
    rw [isPrime?_of_even (mt small_iff.mp small) (even_iff.mpr even), beq_eq_decide,
      decide_eq_decide.mpr (two_iff.trans (prime_iff_of_even even).symm)]
  · have searched := Searched.start (Nat.not_even_iff_odd.mp even) (by omega)
    rw [isPrime?_of_odd (mt small_iff.mp small) (mt even_iff.mp even),
      noFactorFrom?_eq dividend rfl searched]

theorem isPrime_iff {n : Int} :
    isPrime n = true ↔ (∃ word, Word.ofInt? n = some word) ∧ n.toNat.Prime := by
  simp only [isPrime, beq_iff_eq, Option.bind_eq_some_iff, isPrime?_eq, Option.some.injEq,
    decide_eq_true_iff, Word.ofInt?_eq_some_iff]
  constructor
  · rintro ⟨word, rfl, prime⟩
    exact ⟨⟨word, rfl⟩, prime⟩
  · rintro ⟨⟨word, rfl⟩, prime⟩
    exact ⟨word, rfl, prime⟩

/-- A prime number is an integer above 1 that no integer between 1 and itself divides. -/
theorem prime_toNat_iff {n : Int} :
    n.toNat.Prime ↔ 2 ≤ n ∧ ∀ d, 1 < d → d < n → ¬d ∣ n := by
  by_cases negative : n < 0
  · rw [Int.toNat_of_nonpos negative.le]
    exact iff_of_false Nat.not_prime_zero (by omega)
  lift n to Nat using by omega
  rw [Int.toNat_natCast, Nat.prime_def_lt']
  constructor
  · rintro ⟨large, apart⟩
    refine ⟨by omega, fun d low high divides => ?_⟩
    lift d to Nat using by omega
    exact apart d (by omega) (by omega) (Int.natCast_dvd_natCast.mp divides)
  · rintro ⟨large, apart⟩
    refine ⟨by omega, fun d low high divides => ?_⟩
    exact apart d (by omega) (by omega) (Int.natCast_dvd_natCast.mpr divides)

/-- Trial division has an answer for every integer of 64 bits: no sum on the way overflows, and no
quotient does or has the divisor zero. The number is found to be prime exactly if it is at least 2
and no integer strictly between 1 and itself divides it. -/
theorem isPrime?_decides (n : Int64) :
    ∃ prime, isPrime? n = some prime ∧ isPrime n.toInt = prime ∧
      (prime = true ↔ 2 ≤ n.toInt ∧ ∀ d, 1 < d → d < n.toInt → ¬d ∣ n.toInt) := by
  have word : Word.ofInt? n.toInt = some n := Word.ofInt?_eq_some_iff.mpr rfl
  refine ⟨decide n.toInt.toNat.Prime, isPrime?_eq n, ?_, ?_⟩
  · rw [Bool.eq_iff_iff, isPrime_iff, decide_eq_true_iff, and_iff_right ⟨n, word⟩]
  · rw [decide_eq_true_iff, prime_toNat_iff]

end DiscreteMath.Number
