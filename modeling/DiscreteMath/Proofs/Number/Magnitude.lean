import DiscreteMath.Proofs.Number.Addition

/-!
# Magnitudes of floats

The product with a small float is finite. The infinity is the magnitude of the infinite floats, and
it is greater than every finite float.

## Main definitions

* `infinity` — the float that is greater than all others.
-/

namespace DiscreteMath.Number

open Float.Model Float.Model.UnpackedFloat

variable {x y : Float}

/-! ### Exponents -/

theorem isFinite_pack_zero (s : Sign) : (Float.Model.pack (.zero s)).isFinite = true := by
  cases s <;> decide +kernel

/-- A number is stored as a finite float unless its exponent is too large. -/
theorem isFinite_pack {s : Sign} {m : Nat} {e : Int} {positive : 0 < m} (small : e ≤ 971) :
    (Float.Model.pack (.finite s m e positive)).isFinite = true := by
  refine isFinite_unpack_iff.mpr ?_
  have biased : (e + (Format.binary64.exponentBias : Nat)
      + (Format.binary64.mantissaBitsWithoutImplicit : Nat)).toNat < 2047 := by
    change (e + ((1023 : Nat) : Int) + ((52 : Nat) : Int)).toNat < 2047
    omega
  have room : ¬2 ^ 11 ≤ (e + (Format.binary64.exponentBias : Nat)
      + (Format.binary64.mantissaBitsWithoutImplicit : Nat)).toNat + 1 := by
    omega
  change (@unpackExponent .binary64 (UnpackedFloat.pack .binary64 _)).toNat < 2047
  rw [UnpackedFloat.pack]
  simp only
  rw [if_neg room]
  split
  · rw [unpackExponent_packComponents, BitVec.toNat_ofNat]
    exact (Nat.mod_le _ _).trans_lt biased
  · rw [unpackExponent_packComponents]
    decide

/-- A finite float has at most 53 digits, and its last place is not above that of the greatest
float. -/
theorem bounds_of_unpack {s : Sign} {m : Nat} {e : Int} {positive : 0 < m}
    (unpacked : x.toModel.unpack = .finite s m e positive) : m < 2 ^ 53 ∧ e ≤ 971 := by
  obtain ⟨⟨⟨bits⟩, valid⟩⟩ := x
  change UnpackedFloat.unpack .binary64 bits = _ at unpacked
  have partly := isFinite_unpack_iff.mp ((congrArg _ unpacked).trans rfl)
  have small : (@unpackMantissa .binary64 bits).toNat < 2 ^ 52 := BitVec.isLt _
  have fields := fields_unpack bits
  generalize UnpackedFloat.unpack .binary64 bits = u at fields unpacked
  cases fields <;> cases unpacked <;> omega

theorem mantissa_shiftRight (em : ExtendedMantissa) (n : Nat) :
    (em >>> n).mantissa = em.mantissa / 2 ^ n := by
  induction n with
  | zero => exact (Nat.div_one _).symm
  | succ n ih =>
    change (em >>> n).mantissa / 2 = _
    rw [ih, Nat.div_div_eq_div_mul, Nat.pow_succ]

theorem mantissa_ofMantissaAndAccuracy (m : Nat) (a : Accuracy) :
    (ExtendedMantissa.ofMantissaAndAccuracy m a).mantissa = m := by
  unfold ExtendedMantissa.ofMantissaAndAccuracy
  split <;> rfl

theorem roundedMantissa_le (em : ExtendedMantissa) : em.roundedMantissa ≤ em.mantissa + 1 := by
  unfold ExtendedMantissa.roundedMantissa Accuracy.roundToNearestEven
  split <;> omega

/-- The last place is at least 52 below the leading digit afterwards, and not below that of the
least float. -/
theorem exponent_shiftToTargetExponent (m : Nat) (e : Int) (a : Accuracy) :
    (shiftToTargetExponent .binary64 m e a).2 = max e (max (m.log2 + e - 52) (-1074)) := by
  have target : Format.binary64.targetExponent (totalExponent m e) =
      max (m.log2 + 1 + e - 53) (-1074) := rfl
  change e + ((Format.binary64.targetExponent (totalExponent m e) - e).toNat : Int) = _
  omega

theorem mantissa_shiftToTargetExponent (m : Nat) (e : Int) (a : Accuracy) :
    (shiftToTargetExponent .binary64 m e a).1.mantissa =
      m / 2 ^ ((shiftToTargetExponent .binary64 m e a).2 - e).toNat := by
  have amount : ((shiftToTargetExponent .binary64 m e a).2 - e).toNat =
      (Format.binary64.targetExponent (totalExponent m e) - e).toNat := by
    change (e + ((_ : Int).toNat : Int) - e).toNat = _
    omega
  rw [amount]
  exact (mantissa_shiftRight _ _).trans (by rw [mantissa_ofMantissaAndAccuracy])

theorem log2_le_of_le_two_pow {m k : Nat} (bound : m ≤ 2 ^ k) : m.log2 ≤ k := by
  obtain rfl | positive := Nat.eq_zero_or_pos m
  · exact Nat.zero_le k
  · exact (Nat.pow_le_pow_iff_right (by decide)).mp ((Nat.log2_self_le positive.ne').trans bound)

/-- A value below the powers of two that floats have is rounded to a finite float. -/
theorem isFinite_roundWithAccuracy {s : Sign} {m k : Nat} {e : Int} (a : Accuracy)
    (short : m < 2 ^ k) (last : e ≤ 971) (leading : e + k ≤ 1023) :
    (Float.Model.pack (roundWithAccuracy .binary64 s m e a)).isFinite = true := by
  unfold roundWithAccuracy
  dsimp only
  split
  · exact isFinite_pack_zero s
  refine isFinite_pack ?_
  have first := exponent_shiftToTargetExponent m e a
  have shifted := mantissa_shiftToTargetExponent m e a
  generalize shiftToTargetExponent .binary64 m e a = once at first shifted ⊢
  have rounded := roundedMantissa_le once.1
  have digits := log2_le_of_le_two_pow short.le
  -- What is left of the digits, and one more if the mantissa is rounded up to a power of two.
  have left : once.1.roundedMantissa ≤ 2 ^ (k - (once.2 - e).toNat) := by
    have below : once.1.mantissa < 2 ^ (k - (once.2 - e).toNat) := by
      rw [shifted, Nat.div_lt_iff_lt_mul (by positivity), ← Nat.pow_add]
      exact short.trans_le (Nat.pow_le_pow_right (by decide) (by omega))
    omega
  have again := log2_le_of_le_two_pow left
  rw [exponent_shiftToTargetExponent]
  omega

/-! ### Products -/

/-- The product of a float below a half with a finite float is finite. -/
theorem isFinite_mul_of_small {s : Sign} {m : Nat} {e : Int} {positive : 0 < m}
    (unpacked : x.toModel.unpack = .finite s m e positive) (small : e ≤ -54)
    (finite : y.isFinite = true) : (x * y).isFinite = true := by
  change (Float.Model.pack (UnpackedFloat.mul .binary64 x.toModel.unpack y.toModel.unpack)).isFinite
    = true
  have factor := (bounds_of_unpack unpacked).1
  rw [isFinite_iff] at finite
  rw [unpacked]
  cases other : y.toModel.unpack with
  | infinity s' | notANumber =>
    rw [other] at finite
    cases finite
  | zero s' => exact isFinite_pack_zero _
  | finite s' m' e' positive' =>
    obtain ⟨factor', last⟩ := bounds_of_unpack other
    have product : m * m' < 2 ^ 106 := by
      calc m * m' < 2 ^ 53 * 2 ^ 53 := Nat.mul_lt_mul'' factor factor'
        _ = 2 ^ 106 := by norm_num
    exact isFinite_roundWithAccuracy .exact product (by omega) (by omega)

/-! ### Comparisons -/

def infinity : Float := Float.ofBits 0x7FF0000000000000

theorem abs_of_isInf (infinite : x.isInf = true) : x.abs = infinity := by
  obtain ⟨s, sign⟩ := (isInf_iff x).mp infinite
  refine eq_of_toModel_eq_pack ?_
  change Float.Model.pack x.toModel.unpack.abs = _
  rw [sign]
  rfl

theorem isFinite_abs (finite : x.isFinite = true) : x.abs.isFinite = true := by
  change (Float.Model.pack x.toModel.unpack.abs).isFinite = true
  rw [isFinite_iff] at finite
  cases unpacked : x.toModel.unpack with
  | infinity s | notANumber =>
    rw [unpacked] at finite
    cases finite
  | zero s => exact isFinite_pack_zero _
  | finite s m e positive => exact isFinite_pack (bounds_of_unpack unpacked).2

/-- No finite float is as large as the infinity. -/
theorem not_infinity_le (finite : y.isFinite = true) : ¬infinity ≤ y := by
  have positive : infinity.toModel.unpack = .infinity .positive := rfl
  intro le
  have le : infinity.toModel.unpack.le y.toModel.unpack = true := of_decide_eq_true le
  rw [isFinite_iff] at finite
  rw [positive] at le
  generalize y.toModel.unpack = v at finite le
  cases v <;> contradiction

theorem isFinite_max (left : x.isFinite = true) (right : y.isFinite = true) :
    (max x y).isFinite = true := by
  change (if x ≤ y then y else x).isFinite = true
  split
  · exact right
  · exact left

theorem max_infinity (finite : y.isFinite = true) : max infinity y = infinity :=
  if_neg (not_infinity_le finite)

end DiscreteMath.Number
