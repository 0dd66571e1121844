import DiscreteMath.Proofs.Number.FloatEquality
import DiscreteMath.Number.Exact

/-!
# Products of finite floats

A product of finite floats is finite or infinite, never undefined.
-/

namespace DiscreteMath.Number

open Float.Model Float.Model.UnpackedFloat

/-- Only the undefined number has a full exponent field and a fraction. -/
theorem packComponents_ne_packedNaN {s : Sign} {e : BitVec 11} {m : BitVec 52}
    (number : e ≠ -1#_ ∨ m = 0) :
    packComponents .binary64 s e m ≠ packedNaN .binary64 := by
  intro undefined
  have exponent := congrArg (@unpackExponent .binary64) undefined
  have mantissa := congrArg (@unpackMantissa .binary64) undefined
  rw [packedNaN, unpackExponent_packComponents, unpackExponent_packComponents] at exponent
  rw [packedNaN, unpackMantissa_packComponents, unpackMantissa_packComponents] at mantissa
  rcases number with room | zero
  · exact room exponent
  · rw [zero] at mantissa
    cases mantissa

/-- A number is not stored as the undefined number. -/
theorem isNaN_pack {u : UnpackedFloat} (number : u.isNaN = false) :
    (Float.Model.pack u).isNaN = false := by
  change (UnpackedFloat.unpack .binary64 (UnpackedFloat.pack .binary64 u)).isNaN = false
  rw [← Bool.not_eq_true, isNaN_unpack_iff_of_valid valid_pack]
  cases u with
  | notANumber => cases number
  | infinity s => exact packComponents_ne_packedNaN (.inr rfl)
  | zero s => exact packComponents_ne_packedNaN (.inr rfl)
  | finite s m e positive =>
    rw [UnpackedFloat.pack]
    split
    · exact packComponents_ne_packedNaN (.inr rfl)
    next room =>
      split
      · refine packComponents_ne_packedNaN (.inl fun full => room ?_)
        have full := congrArg BitVec.toNat full
        rw [BitVec.toNat_ofNat] at full
        change _ % 2 ^ 11 = 2047 at full
        change 2 ^ 11 ≤ _
        omega
      · exact packComponents_ne_packedNaN (.inl (by decide))

theorem isNaN_roundWithAccuracy (s : Sign) (m : Nat) (e : Int) (a : Accuracy) :
    (roundWithAccuracy .binary64 s m e a).isNaN = false := by
  unfold roundWithAccuracy
  dsimp only
  split <;> rfl

theorem isNaN_mul {x y : Float} (left : x.isFinite = true) (right : y.isFinite = true) :
    (x * y).isNaN = false := by
  refine isNaN_pack ?_
  change x.toModel.unpack.isFinite = true at left
  change y.toModel.unpack.isFinite = true at right
  generalize x.toModel.unpack = u at left
  generalize y.toModel.unpack = v at right
  cases u <;> cases v <;> first
    | exact isNaN_roundWithAccuracy ..
    | contradiction
    | rfl

/-- A product of finite floats overflows, or it is finite. -/
theorem isInf_mul {x y : Float} (left : x.isFinite = true) (right : y.isFinite = true) :
    (x * y).isInf = !(x * y).isFinite :=
  isInf_of_isNaN (isNaN_mul left right)

end DiscreteMath.Number
