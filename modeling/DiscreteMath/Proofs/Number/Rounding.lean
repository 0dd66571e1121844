import DiscreteMath.Proofs.Number.FloatEquality
import Mathlib

/-!
# Rounding to the nearest float

The nearest float to a quotient depends on its value alone. The nearest float to the value of a
float is that float.

## Main definitions

* `Binary.value` — the value as a rational number.
* `Binary.Canonical` — mantissa and exponent are those of a float.
-/

namespace DiscreteMath.Number

open Float.Model Float.Model.UnpackedFloat

/-! ### Bits -/

theorem toBits_injective {x y : Float} (h : x.toBits = y.toBits) : x = y := by
  obtain ⟨⟨bits, valid⟩⟩ := x
  obtain ⟨⟨bits', valid'⟩⟩ := y
  obtain rfl : bits = bits' := h
  rfl

theorem unpackSign_packComponents {s : Sign} {e : BitVec 11} {m : BitVec 52} :
    @unpackSign .binary64 (packComponents .binary64 s e m) = s.toBitVec := by
  refine BitVec.eq_of_getLsbD_eq fun i small => ?_
  obtain rfl : i = 0 := Nat.lt_one_iff.mp small
  have top : (@packComponents .binary64 s e m).getLsbD 63 = s.toBitVec.getLsbD 0 := by
    change (s.toBitVec ++ e ++ m).getLsbD 63 = _
    rw [BitVec.getLsbD_append, BitVec.getLsbD_append]
    rfl
  rw [← top]
  simp [unpackSign]

/-- A float is put together from what its bits say. -/
theorem packComponents_eq {a : BitVec 64} {e : BitVec 11} {m : BitVec 52}
    (exponent : @unpackExponent .binary64 a = e) (mantissa : @unpackMantissa .binary64 a = m) :
    packComponents .binary64 (.ofBitVec (@unpackSign .binary64 a)) e m = a := by
  refine eq_of_components ?_ ?_ ?_
  · exact unpackMantissa_packComponents.trans mantissa.symm
  · exact unpackExponent_packComponents.trans exponent.symm
  · rw [unpackSign_packComponents, toBitVec_ofBitVec]

/-- A float is finite if its exponent field is not full. -/
theorem isFinite_unpack_iff {a : BitVec 64} :
    (UnpackedFloat.unpack .binary64 a).isFinite = true ↔
      (@unpackExponent .binary64 a).toNat < 2047 := by
  constructor
  · intro finite
    have bound : (@unpackExponent .binary64 a).toNat < 2048 := BitVec.isLt _
    refine Nat.lt_of_le_of_ne (Nat.le_of_lt_succ bound) fun same => ?_
    have full : @unpackExponent .binary64 a = -1#_ := BitVec.eq_of_toNat_eq same
    rw [UnpackedFloat.unpack] at finite
    simp only [if_pos full] at finite
    split at finite <;> cases finite
  · intro bound
    have partly : @unpackExponent .binary64 a ≠ -1#_ :=
      fun full => bound.ne (congrArg BitVec.toNat full)
    have fields := fields_unpack a
    generalize UnpackedFloat.unpack .binary64 a = u at fields
    cases fields <;> first | contradiction | rfl

theorem pack_unpack {a : BitVec 64} (valid : Format.binary64.Valid a) :
    UnpackedFloat.pack .binary64 (UnpackedFloat.unpack .binary64 a) = a := by
  have fields := fields_unpack a
  generalize unpacked : UnpackedFloat.unpack .binary64 a = u at fields
  cases fields with
  | infinity full none => exact packComponents_eq full none
  | notANumber full some => exact (valid.eq_packedNaN full some).symm
  | zero low none => exact packComponents_eq low none
  | @subnormal m e positive exponent mantissa scale =>
    have biased : (e + (Format.binary64.exponentBias : Nat)
        + (Format.binary64.mantissaBitsWithoutImplicit : Nat)).toNat = 1 := by
      rw [scale]
      rfl
    have short : m.log2 + 1 ≠ Format.binary64.mantissaBits := by
      intro long
      have small : (@unpackMantissa .binary64 a).toNat < 2 ^ 52 := BitVec.isLt _
      have large := Nat.log2_self_le positive.ne'
      rw [show m.log2 = 52 from Nat.succ.inj long, ← mantissa] at large
      omega
    rw [UnpackedFloat.pack]
    simp only [biased]
    rw [if_neg (by decide), if_neg short]
    refine packComponents_eq (BitVec.eq_of_toNat_eq exponent) ?_
    rw [← mantissa]
    simp
  | @normal m e positive exponent mantissa scale =>
    have small : (@unpackMantissa .binary64 a).toNat < 2 ^ 52 := BitVec.isLt _
    have partly := isFinite_unpack_iff.mp ((congrArg _ unpacked).trans rfl)
    have biased : (e + (Format.binary64.exponentBias : Nat)
        + (Format.binary64.mantissaBitsWithoutImplicit : Nat)).toNat =
        (@unpackExponent .binary64 a).toNat := by
      rw [scale]
      change (_ - 1075 + ((1023 : Nat) : Int) + ((52 : Nat) : Int)).toNat = _
      omega
    have long : m.log2 + 1 = Format.binary64.mantissaBits := by
      have := (Nat.log2_eq_iff positive.ne' (k := 52)).mpr (by omega)
      exact congrArg (· + 1) this
    rw [UnpackedFloat.pack]
    simp only [biased]
    rw [if_neg (by omega), if_pos long]
    refine packComponents_eq ?_ (BitVec.eq_of_toNat_eq ?_)
    · simp
    · rw [← mantissa]
      simpa using (Nat.mod_eq_of_lt small).symm

/-! ### Quotients -/

theorem zpow_eq_div {b : ℚ} (nonzero : b ≠ 0) (z : ℤ) : b ^ z = b ^ z.toNat / b ^ (-z).toNat := by
  conv_lhs => rw [← Int.toNat_sub_toNat_neg z]
  rw [zpow_sub₀ nonzero, zpow_natCast, zpow_natCast]

/-- The quotient, with the digits of the exponent shifted into one of the two numbers. -/
theorem shift_lt_shift_iff {n d : Nat} (positive : 0 < d) (z : ℤ) :
    n <<< (-z).toNat < d <<< z.toNat ↔ (n : ℚ) / d < 2 ^ z := by
  have scale : (0 : ℚ) < 2 ^ (-z).toNat := by positivity
  have divisor : (0 : ℚ) < d := by exact_mod_cast positive
  rw [zpow_eq_div two_ne_zero, div_lt_div_iff₀ divisor scale, Nat.shiftLeft_eq, Nat.shiftLeft_eq,
    mul_comm _ (d : ℚ)]
  exact_mod_cast Iff.rfl

/-- The leading digit of a quotient stands at the difference of the leading digits or below. -/
theorem log_div {n d : Nat} (hn : 0 < n) (hd : 0 < d) :
    Int.log 2 ((n : ℚ) / d) = n.log2 - d.log2 ∨ Int.log 2 ((n : ℚ) / d) = n.log2 - d.log2 - 1 := by
  have value : (0 : ℚ) < n / d := by positivity
  have upper {m : Nat} : (m : ℚ) < ((2 : ℕ) : ℚ) ^ (m.log2 + 1) := by
    exact_mod_cast Nat.lt_log2_self
  have lower {m : Nat} (hm : 0 < m) : ((2 : ℕ) : ℚ) ^ m.log2 ≤ m := by
    exact_mod_cast Nat.log2_self_le hm.ne'
  have high : (n : ℚ) / d < ((2 : ℕ) : ℚ) ^ (((n.log2 + 1 : ℕ) : ℤ) - (d.log2 : ℕ)) := by
    rw [zpow_sub₀ (by norm_num), zpow_natCast, zpow_natCast]
    have := lower hd
    gcongr
    exact upper
  have low : ((2 : ℕ) : ℚ) ^ ((n.log2 : ℤ) - (d.log2 + 1 : ℕ)) ≤ n / d := by
    rw [zpow_sub₀ (by norm_num), zpow_natCast, zpow_natCast]
    have := lower hn
    gcongr
    exact upper.le
  have high := (Int.lt_zpow_iff_log_lt one_lt_two value).mp high
  have low := (Int.zpow_le_iff_le_log one_lt_two value).mp low
  omega

/-- The last place is 52 below the leading digit, but not below that of the least float. -/
theorem lastPlace_eq {n d : Nat} (hn : 0 < n) (hd : 0 < d) :
    lastPlace n d = max (Int.log 2 ((n : ℚ) / d) - 52) (-1074) := by
  have value : (0 : ℚ) < n / d := by positivity
  have below : n <<< (-((n.log2 : ℤ) - d.log2)).toNat < d <<< ((n.log2 : ℤ) - d.log2).toNat ↔
      Int.log 2 ((n : ℚ) / d) < (n.log2 : ℤ) - d.log2 :=
    (shift_lt_shift_iff hd _).trans (Int.lt_zpow_iff_log_lt (b := 2) one_lt_two value)
  have near := log_div hn hd
  unfold lastPlace
  simp only [below]
  split <;> congr 1 <;> omega

theorem roundHalfEven_mul {k : Nat} (hk : 0 < k) (n d : Nat) :
    roundHalfEven (k * n) (k * d) = roundHalfEven n d := by
  have twice (m : Nat) : 2 * (k * m) = k * (2 * m) := by ring
  unfold roundHalfEven
  simp only [Nat.mul_div_mul_left _ _ hk, Nat.mul_mod_mul_left, twice,
    Nat.mul_lt_mul_left hk, Nat.mul_left_cancel_iff hk, beq_eq_decide]

theorem roundHalfEven_exact {d : Nat} (hd : 0 < d) (m : Nat) : roundHalfEven (m * d) d = m := by
  simp [roundHalfEven, Nat.mul_div_cancel m hd, hd]

theorem nearest_zero (d : Nat) : nearest 0 d = 0 := if_pos rfl

theorem nearest_mul {k d : Nat} (hk : 0 < k) (hd : 0 < d) (n : Nat) :
    nearest (k * n) (k * d) = nearest n d := by
  rcases Nat.eq_zero_or_pos n with rfl | hn
  · rw [Nat.mul_zero, nearest_zero, nearest_zero]
  · have place : lastPlace (k * n) (k * d) = lastPlace n d := by
      rw [lastPlace_eq (by positivity) (by positivity), lastPlace_eq hn hd, Nat.cast_mul,
        Nat.cast_mul, mul_div_mul_left _ _ (by positivity)]
    have product : k * n ≠ 0 := by positivity
    simp only [nearest, if_neg product, if_neg hn.ne', place, Nat.shiftLeft_eq, Nat.mul_assoc,
      roundHalfEven_mul hk]

/-- The nearest float to a quotient depends on its value alone. -/
theorem nearest_congr {n d n' d' : Nat} (hd : 0 < d) (hd' : 0 < d')
    (same : (n : ℚ) / d = n' / d') : nearest n d = nearest n' d' := by
  have cross : d' * n = d * n' := by
    rw [div_eq_div_iff (by positivity) (by positivity)] at same
    rw [mul_comm (d' : ℕ), mul_comm (d : ℕ)]
    exact_mod_cast same
  rw [← nearest_mul hd' hd, cross, Nat.mul_comm d' d, nearest_mul hd hd']

/-! ### The value of a float -/

namespace Binary

def value (b : Binary) : ℚ := b.mantissa * 2 ^ b.exponent

theorem denominator_pos (b : Binary) : 0 < b.denominator := by
  simp [denominator, Nat.shiftLeft_eq]

theorem value_eq (b : Binary) : b.value = b.numerator / b.denominator := by
  simp [value, numerator, denominator, Nat.shiftLeft_eq, zpow_eq_div, mul_div_assoc]

/-- Mantissa and exponent are those of a float: the mantissa has 53 digits, or less if the exponent
is the least one. -/
structure Canonical (b : Binary) : Prop where
  short : b.mantissa < 2 ^ 53
  least : -1074 ≤ b.exponent
  long : 2 ^ 52 ≤ b.mantissa ∨ b.exponent = -1074

theorem Canonical.lastPlace_eq {b : Binary} (canonical : b.Canonical) (positive : 0 < b.mantissa) :
    lastPlace b.numerator b.denominator = b.exponent := by
  have numerator : 0 < b.numerator := by simpa [Binary.numerator, Nat.shiftLeft_eq] using positive
  have scale : (0 : ℚ) < 2 ^ b.exponent := by positivity
  have value : 0 < b.value := by unfold Binary.value; positivity
  have high : b.value < ((2 : ℕ) : ℚ) ^ (53 + b.exponent) := by
    rw [zpow_add₀ (by norm_num)]
    exact mul_lt_mul_of_pos_right (by exact_mod_cast canonical.short) scale
  have low (h : 2 ^ 52 ≤ b.mantissa) : ((2 : ℕ) : ℚ) ^ (52 + b.exponent) ≤ b.value := by
    rw [zpow_add₀ (by norm_num)]
    exact mul_le_mul_of_nonneg_right (by exact_mod_cast h) scale.le
  have high := (Int.lt_zpow_iff_log_lt one_lt_two value).mp high
  have low h := (Int.zpow_le_iff_le_log one_lt_two value).mp (low h)
  have least := canonical.least
  rw [Number.lastPlace_eq numerator b.denominator_pos, ← value_eq]
  rcases canonical.long with long | last
  · have := low long
    omega
  · omega

theorem Canonical.toFloat_eq {b : Binary} (canonical : b.Canonical) (positive : 0 < b.mantissa) :
    b.toFloat = Float.ofBits (UInt64.ofNat (min (bitsOf b.mantissa b.exponent) infinityBits)) := by
  have numerator : b.numerator ≠ 0 := by
    simpa [Binary.numerator, Nat.shiftLeft_eq] using positive.ne'
  have rounded : roundHalfEven (b.numerator <<< (-b.exponent).toNat)
      (b.denominator <<< b.exponent.toNat) = b.mantissa := by
    have scaled : b.numerator <<< (-b.exponent).toNat =
        b.mantissa * (b.denominator <<< b.exponent.toNat) := by
      simp only [Binary.numerator, Binary.denominator, Nat.shiftLeft_eq]
      ring
    have positive : 0 < b.denominator <<< b.exponent.toNat := by
      simpa [Nat.shiftLeft_eq] using b.denominator_pos
    rw [scaled, roundHalfEven_exact positive]
  rw [toFloat, nearest, if_neg numerator]
  simp only [canonical.lastPlace_eq positive, rounded]

theorem ofFloat_eq (x : Float) : ofFloat x =
    if x.toBits.toNat / 2 ^ 52 % 2 ^ 11 = 0 then ⟨x.toBits.toNat % 2 ^ 52, -1074⟩
    else ⟨2 ^ 52 + x.toBits.toNat % 2 ^ 52, (x.toBits.toNat / 2 ^ 52 % 2 ^ 11 : Nat) - 1075⟩ := by
  have fraction : (x.toBits &&& 0xFFFFFFFFFFFFF).toNat = x.toBits.toNat % 2 ^ 52 := by
    rw [UInt64.toNat_and]
    exact Nat.and_two_pow_sub_one_eq_mod _ 52
  have biased : ((x.toBits >>> 52) &&& 0x7FF).toNat = x.toBits.toNat / 2 ^ 52 % 2 ^ 11 := by
    rw [UInt64.toNat_and, UInt64.toNat_shiftRight]
    change (x.toBits.toNat >>> 52) &&& (2 ^ 11 - 1) = _
    rw [Nat.and_two_pow_sub_one_eq_mod, Nat.shiftRight_eq_div_pow]
  simp only [ofFloat, fraction, biased]
  rfl

theorem canonical_ofFloat (x : Float) : (ofFloat x).Canonical := by
  rw [ofFloat_eq]
  split
  · exact ⟨by dsimp only; omega, le_rfl, .inr rfl⟩
  · exact ⟨by dsimp only; omega, by dsimp only; omega, .inl (Nat.le_add_right _ _)⟩

end Binary

theorem infinityBits_eq : infinityBits = 2047 * 2 ^ 52 := rfl

theorem ofBits_toBits (x : Float) : Float.ofBits x.toBits = x := by
  obtain ⟨⟨⟨bits⟩, valid⟩⟩ := x
  exact toBits_injective (congrArg UInt64.ofBitVec (pack_unpack valid))

theorem toBits_ofBits {n : Nat} (bound : n ≤ infinityBits) :
    (Float.ofBits (UInt64.ofNat n)).toBits.toNat = n := by
  rw [infinityBits_eq] at bound
  have valid : Format.binary64.Valid (UInt64.ofNat n).toBitVec := by
    refine ⟨fun full some => absurd (BitVec.eq_of_toNat_eq ?_) some⟩
    have full : (@unpackExponent .binary64 (UInt64.ofNat n).toBitVec).toNat = 2047 :=
      congrArg BitVec.toNat full
    rw [toNat_unpackExponent, UInt64.toNat_toBitVec, UInt64.toNat_ofNat'] at full
    rw [toNat_unpackMantissa, UInt64.toNat_toBitVec, UInt64.toNat_ofNat']
    change n % 2 ^ 64 % 2 ^ 52 = 0
    omega
  refine (congrArg BitVec.toNat (pack_unpack valid)).trans ?_
  rw [UInt64.toNat_toBitVec, UInt64.toNat_ofNat']
  omega

theorem toBits_nearest_le (n d : Nat) : (nearest n d).toBits.toNat ≤ infinityBits := by
  unfold nearest
  split
  · exact Nat.zero_le _
  · exact (toBits_ofBits (Nat.min_le_right _ _)).le.trans (Nat.min_le_right _ _)

theorem isNegative_eq_false_iff {x : Float} :
    isNegative x = false ↔ x.toBits.toNat / 2 ^ 63 = 0 := by
  have bit : (x.toBits >>> 63).toNat = x.toBits.toNat / 2 ^ 63 := by
    rw [UInt64.toNat_shiftRight]
    exact Nat.shiftRight_eq_div_pow _ 63
  rw [isNegative, beq_eq_false_iff_ne, ne_eq, ← UInt64.toNat_inj, bit]
  change _ ≠ 1 ↔ _
  have := x.toBits.toNat_lt
  omega

/-- The finite floats without a sign are those below the infinity in the order of the bits. -/
theorem toBits_lt_infinityBits_iff {x : Float} :
    x.toBits.toNat < infinityBits ↔ x.isFinite = true ∧ isNegative x = false := by
  rw [isNegative_eq_false_iff]
  obtain ⟨⟨⟨bits⟩, valid⟩⟩ := x
  change bits.toNat < infinityBits ↔
    (UnpackedFloat.unpack .binary64 bits).isFinite = true ∧ bits.toNat / 2 ^ 63 = 0
  rw [isFinite_unpack_iff, toNat_unpackExponent, infinityBits_eq]
  omega

theorem abs_eq {x : Float} (sign : isNegative x = false) : x.abs = x := by
  have bit := isNegative_eq_false_iff.mp sign
  obtain ⟨⟨⟨bits⟩, valid⟩⟩ := x
  have positive : Sign.ofBitVec (@unpackSign .binary64 bits) = .positive := by
    refine if_pos (BitVec.eq_of_toNat_eq ?_)
    rw [toNat_unpackSign]
    exact congrArg (· % 2) bit
  have same : (UnpackedFloat.unpack .binary64 bits).abs = UnpackedFloat.unpack .binary64 bits := by
    have fields := fields_unpack bits
    generalize UnpackedFloat.unpack .binary64 bits = u at fields
    cases fields <;> rw [UnpackedFloat.abs] <;> rw [positive]
  refine toBits_injective (congrArg UInt64.ofBitVec ?_)
  exact (congrArg _ same).trans (pack_unpack valid)

/-- The nearest float to the value of a float is that float. -/
theorem toFloat_ofFloat {x : Float} (finite : x.isFinite = true) (sign : isNegative x = false)
    (positive : 0 < (Binary.ofFloat x).mantissa) : (Binary.ofFloat x).toFloat = x := by
  have bound := toBits_lt_infinityBits_iff.mpr ⟨finite, sign⟩
  have bits : bitsOf (Binary.ofFloat x).mantissa (Binary.ofFloat x).exponent = x.toBits.toNat := by
    rw [infinityBits_eq] at bound
    rw [Binary.ofFloat_eq]
    unfold bitsOf
    split <;> dsimp only <;> rw [Nat.shiftLeft_eq] <;> omega
  rw [(Binary.canonical_ofFloat x).toFloat_eq positive, bits, Nat.min_eq_left bound.le,
    UInt64.ofNat_toNat, ofBits_toBits]

end DiscreteMath.Number
