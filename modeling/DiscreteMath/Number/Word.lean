/-!
# Integers of 64 bits

The operations of a machine wrap around where 64 bits do not hold the result, and divide by zero to
zero. Those given here have a result only where it is the one among all integers.
-/

namespace DiscreteMath.Number.Word

def ofInt? (n : Int) : Option Int64 :=
  if (Int64.ofInt n).toInt = n then some (Int64.ofInt n) else none

/-- A sum that wraps around lies on the wrong side of `a` for the sign of `b`. -/
@[inline] def sum? (a b : Int64) : Option Int64 :=
  if 0 ≤ b ↔ a ≤ a + b then some (a + b) else none

/-- The divisor is not zero, and the quotient is not `2 ^ 63`, the only one that wraps around. -/
@[inline] def hasQuotient (a b : Int64) : Bool := b != 0 && !(a == Int64.minValue && b == -1)

@[inline] def quotient? (a b : Int64) : Option Int64 :=
  if hasQuotient a b then some (a / b) else none

/-- What the quotient leaves. It has the sign of `a`. -/
@[inline] def remainder? (a b : Int64) : Option Int64 :=
  if hasQuotient a b then some (a % b) else none

variable {a b c : Int64} {n : Int}

/-- A word that stands for `n` up to a multiple of `2 ^ 64` stands for `n` itself and is `c`,
exactly if `c` stands for `n`. -/
theorem unwrapped_iff (wrapped : a.toInt = n.bmod Int64.size) :
    a.toInt = n ∧ a = c ↔ c.toInt = n := by
  constructor
  · rintro ⟨same, rfl⟩
    exact same
  · intro same
    have equal : a = c := by rw [← Int64.toInt_inj, wrapped, ← same, c.toInt_bmod_size]
    exact ⟨equal ▸ same, equal⟩

theorem ofInt?_eq_some_iff : ofInt? n = some a ↔ a.toInt = n := by
  rw [ofInt?, Option.ite_none_right_eq_some, Option.some.injEq, unwrapped_iff Int64.toInt_ofInt]

theorem exists_ofInt? (low : Int64.minValue.toInt ≤ n) (high : n ≤ Int64.maxValue.toInt) :
    ∃ a, ofInt? n = some a :=
  ⟨Int64.ofIntLE n low high, ofInt?_eq_some_iff.mpr Int64.toInt_ofIntLE⟩

/-! ### Sums -/

theorem toInt_add_eq_iff : (a + b).toInt = a.toInt + b.toInt ↔ (0 ≤ b ↔ a ≤ a + b) := by
  have := a.le_toInt
  have := a.toInt_lt
  have := b.le_toInt
  have := b.toInt_lt
  rw [Int64.le_iff_toInt_le, Int64.le_iff_toInt_le, Int64.toInt_add, Int64.toInt_zero, Int.bmod]
  omega

theorem sum?_eq_some_iff : sum? a b = some c ↔ c.toInt = a.toInt + b.toInt := by
  rw [sum?, Option.ite_none_right_eq_some, Option.some.injEq, ← toInt_add_eq_iff,
    unwrapped_iff (a.toInt_add b)]

theorem exists_sum? (low : Int64.minValue.toInt ≤ a.toInt + b.toInt)
    (high : a.toInt + b.toInt ≤ Int64.maxValue.toInt) : ∃ c, sum? a b = some c :=
  ⟨Int64.ofIntLE _ low high, sum?_eq_some_iff.mpr Int64.toInt_ofIntLE⟩

/-! ### Quotients and remainders -/

theorem hasQuotient_iff :
    hasQuotient a b = true ↔ b ≠ 0 ∧ (a / b).toInt = a.toInt.tdiv b.toInt := by
  by_cases least : a = Int64.minValue
  · by_cases minus : b = -1
    · subst least minus
      decide
    · simp [hasQuotient, minus, Int64.toInt_div_of_ne_right a b minus]
  · simp [hasQuotient, least, Int64.toInt_div_of_ne_left a b least]

theorem hasQuotient_of_pos (positive : 0 < b.toInt) : hasQuotient a b = true := by
  have zero : b ≠ 0 := by
    rintro rfl
    exact absurd positive (by decide)
  have minus : b ≠ -1 := by
    rintro rfl
    exact absurd positive (by decide)
  exact hasQuotient_iff.mpr ⟨zero, a.toInt_div_of_ne_right b minus⟩

theorem quotient?_eq_some_iff :
    quotient? a b = some c ↔ b ≠ 0 ∧ c.toInt = a.toInt.tdiv b.toInt := by
  rw [quotient?, Option.ite_none_right_eq_some, Option.some.injEq, hasQuotient_iff, and_assoc,
    unwrapped_iff (a.toInt_div b)]

/-- A remainder is there where a quotient is. -/
theorem remainder?_eq_some_iff :
    remainder? a b = some c ↔ hasQuotient a b = true ∧ c.toInt = a.toInt.tmod b.toInt := by
  rw [remainder?, Option.ite_none_right_eq_some, Option.some.injEq, ← Int64.toInt_inj,
    Int64.toInt_mod, eq_comm (b := c.toInt)]

theorem quotient?_of_pos (positive : 0 < b.toInt) : quotient? a b = some (a / b) :=
  quotient?_eq_some_iff.mpr (hasQuotient_iff.mp (hasQuotient_of_pos positive))

theorem remainder?_of_pos (positive : 0 < b.toInt) : remainder? a b = some (a % b) :=
  remainder?_eq_some_iff.mpr ⟨hasQuotient_of_pos positive, a.toInt_mod b⟩

end DiscreteMath.Number.Word
