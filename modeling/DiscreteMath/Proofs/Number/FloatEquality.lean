import DiscreteMath.Number.Exact
import Mathlib

/-!
# Equality of floats

Two floats are equal as numbers when they are the same float or two zeros. The undefined number is
one float.
-/

namespace DiscreteMath.Number

open Float.Model Float.Model.UnpackedFloat

/-! ### Bits -/

theorem toNat_unpackMantissa (a : BitVec 64) :
    (@unpackMantissa .binary64 a).toNat = a.toNat % 2 ^ 52 := by
  simp [unpackMantissa]

theorem toNat_unpackExponent (a : BitVec 64) :
    (@unpackExponent .binary64 a).toNat = a.toNat / 2 ^ 52 % 2 ^ 11 := by
  simp [unpackExponent, Nat.shiftRight_eq_div_pow]

theorem toNat_unpackSign (a : BitVec 64) :
    (@unpackSign .binary64 a).toNat = a.toNat / 2 ^ 63 % 2 := by
  simp [unpackSign, Nat.shiftRight_eq_div_pow]

theorem eq_of_components {a b : BitVec 64}
    (mantissas : @unpackMantissa .binary64 a = @unpackMantissa .binary64 b)
    (exponents : @unpackExponent .binary64 a = @unpackExponent .binary64 b)
    (signs : @unpackSign .binary64 a = @unpackSign .binary64 b) : a = b := by
  have mantissa := congrArg BitVec.toNat mantissas
  have exponent := congrArg BitVec.toNat exponents
  have sign := congrArg BitVec.toNat signs
  rw [toNat_unpackMantissa, toNat_unpackMantissa] at mantissa
  rw [toNat_unpackExponent, toNat_unpackExponent] at exponent
  rw [toNat_unpackSign, toNat_unpackSign] at sign
  refine BitVec.eq_of_toNat_eq ?_
  have := a.isLt
  have := b.isLt
  omega

theorem toBitVec_ofBitVec (s : BitVec 1) : (Sign.ofBitVec s).toBitVec = s := by
  revert s
  decide

theorem toNat_leadingOne (m : BitVec 52) : (1#1 ++ m).toNat = 2 ^ 52 + m.toNat := by
  rw [BitVec.toNat_append, ← Nat.shiftLeft_add_eq_or_of_lt m.isLt]
  simp [Nat.shiftLeft_eq]

inductive Fields (a : BitVec 64) : UnpackedFloat → Prop
  | infinity : @unpackExponent .binary64 a = -1#_ → @unpackMantissa .binary64 a = 0#_ →
      Fields a (.infinity (.ofBitVec (@unpackSign .binary64 a)))
  | notANumber : @unpackExponent .binary64 a = -1#_ → @unpackMantissa .binary64 a ≠ 0#_ →
      Fields a .notANumber
  | zero : @unpackExponent .binary64 a = 0#_ → @unpackMantissa .binary64 a = 0#_ →
      Fields a (.zero (.ofBitVec (@unpackSign .binary64 a)))
  | subnormal {m : Nat} {e : Int} (positive : 0 < m) :
      (@unpackExponent .binary64 a).toNat = 0 → (@unpackMantissa .binary64 a).toNat = m →
      e = -1074 → Fields a (.finite (.ofBitVec (@unpackSign .binary64 a)) m e positive)
  | normal {m : Nat} {e : Int} (positive : 0 < m) :
      0 < (@unpackExponent .binary64 a).toNat → 2 ^ 52 + (@unpackMantissa .binary64 a).toNat = m →
      e = (@unpackExponent .binary64 a).toNat - 1075 →
      Fields a (.finite (.ofBitVec (@unpackSign .binary64 a)) m e positive)

theorem fields_unpack (a : BitVec 64) : Fields a (UnpackedFloat.unpack .binary64 a) := by
  unfold UnpackedFloat.unpack
  dsimp only
  split
  next full =>
    split
    next none => exact .infinity full none
    next some => exact .notANumber full some
  · split
    next low =>
      split
      next none => exact .zero low none
      next some => exact .subnormal _ (by rw [low]; rfl) rfl (by rw [low]; rfl)
    next high =>
      refine .normal _ ?_ (toNat_leadingOne _).symm rfl
      exact BitVec.toNat_pos_of_ne_zero high

theorem ofBitVec_injective {s t : BitVec 1} (h : Sign.ofBitVec s = Sign.ofBitVec t) : s = t := by
  rw [← toBitVec_ofBitVec s, ← toBitVec_ofBitVec t, h]

/-- A float is determined by its sign, its mantissa and its exponent. -/
theorem unpack_injective {a b : Float.Model} (h : a.unpack = b.unpack) : a = b := by
  obtain ⟨⟨a⟩, left⟩ := a
  obtain ⟨⟨b⟩, right⟩ := b
  suffices a = b by subst this; rfl
  change UnpackedFloat.unpack .binary64 a = UnpackedFloat.unpack .binary64 b at h
  have first := fields_unpack a
  have second := fields_unpack b
  generalize UnpackedFloat.unpack .binary64 a = u at h first
  generalize UnpackedFloat.unpack .binary64 b = v at h second
  cases first <;> cases second <;> try cases h
  case infinity.infinity full zero full' zero' =>
    injection h with signs
    exact eq_of_components (zero.trans zero'.symm) (full.trans full'.symm)
      (ofBitVec_injective signs)
  case notANumber.notANumber full some full' some' =>
    exact (left.eq_packedNaN full some).trans (right.eq_packedNaN full' some').symm
  case zero.zero low zero low' zero' =>
    injection h with signs
    exact eq_of_components (zero.trans zero'.symm) (low.trans low'.symm)
      (ofBitVec_injective signs)
  -- A leading one in the mantissa tells the normal from the subnormal floats.
  all_goals
    have small : (@unpackMantissa .binary64 a).toNat < 2 ^ 52 := BitVec.isLt _
    have small' : (@unpackMantissa .binary64 b).toNat < 2 ^ 52 := BitVec.isLt _
    injection h with signs mantissas exponents
    refine eq_of_components (BitVec.eq_of_toNat_eq ?_) (BitVec.eq_of_toNat_eq ?_)
      (ofBitVec_injective signs)
    · omega
    · omega

/-- The order of two floats says that they are equal if they are the same or both zero. -/
theorem compare_eq_iff (u v : UnpackedFloat) :
    u.compare v = some .eq ↔ u = v ∧ u ≠ .notANumber ∨ ∃ s t, u = .zero s ∧ v = .zero t := by
  have lexicographic (e e' : Int) (m m' : Nat) :
      (compare e e').then (compare m m') = .eq ↔ m = m' ∧ e = e' := by
    simp [Ordering.then_eq_eq, and_comm]
  have reflexive (s : Sign) : compare s s = .eq := by cases s <;> rfl
  rcases u with (_ | _) | _ | _ | ⟨_ | _, m, e, _⟩ <;>
    rcases v with (_ | _) | _ | _ | ⟨_ | _, m', e', _⟩ <;>
    simp [UnpackedFloat.compare, lexicographic, reflexive]

/-! ### Numbers -/

def IsZero (x : Float) : Prop := ∃ s, x.toModel.unpack = .zero s

theorem toModel_injective {a b : Float} (h : a.toModel = b.toModel) : a = b := by
  obtain ⟨a⟩ := a
  obtain ⟨b⟩ := b
  exact congrArg Float.ofModel h

theorem isNaN_iff (x : Float) : x.isNaN = true ↔ x.toModel.unpack = .notANumber := by
  change x.toModel.unpack.isNaN = true ↔ _
  cases x.toModel.unpack <;> simp [UnpackedFloat.isNaN]

theorem isFinite_iff (x : Float) : x.isFinite = x.toModel.unpack.isFinite := rfl

theorem isInf_iff (x : Float) : x.isInf = true ↔ ∃ s, x.toModel.unpack = .infinity s := by
  change x.toModel.unpack.isInf = true ↔ _
  cases x.toModel.unpack <;> simp [UnpackedFloat.isInf]

/-- A number is finite or infinite. -/
theorem isInf_of_isNaN {x : Float} (number : x.isNaN = false) : x.isInf = !x.isFinite := by
  change x.toModel.unpack.isNaN = false at number
  change x.toModel.unpack.isInf = !x.toModel.unpack.isFinite
  generalize x.toModel.unpack = u at number
  cases u <;> first | contradiction | rfl

theorem isInf_of_not_isFinite {x : Float} (number : x.isNaN = false)
    (overflow : ¬x.isFinite = true) : x.isInf = true := by
  rw [isInf_of_isNaN number, Bool.eq_false_iff.mpr overflow]
  rfl

/-- Equality of floats as numbers. -/
theorem beq_iff (a b : Float) :
    (a == b) = true ↔ a = b ∧ a.isNaN = false ∨ IsZero a ∧ IsZero b := by
  have compared : (a == b) = (a.toModel.unpack.compare b.toModel.unpack == some .eq) := rfl
  rw [compared, beq_iff_eq, compare_eq_iff, ← Bool.not_eq_true, isNaN_iff]
  have same : a.toModel.unpack = b.toModel.unpack ↔ a = b :=
    ⟨fun h => toModel_injective (unpack_injective h), fun h => by rw [h]⟩
  simp only [same, IsZero, exists_and_left, exists_and_right, ne_eq]

theorem beq_zero_iff (x : Float) : (x == 0) = true ↔ IsZero x := by
  have zero : IsZero 0 := ⟨_, rfl⟩
  rw [beq_iff]
  exact ⟨fun h => h.elim (fun same => same.1 ▸ zero) And.left, fun h => .inr ⟨h, zero⟩⟩

theorem eq_of_isNaN {a b : Float} (left : a.isNaN = true) (right : b.isNaN = true) : a = b := by
  rw [isNaN_iff] at left right
  exact toModel_injective (unpack_injective (left.trans right.symm))

theorem IsZero.isFinite {x : Float} (h : IsZero x) : x.isFinite = true := by
  obtain ⟨s, zero⟩ := h
  change x.toModel.unpack.isFinite = true
  rw [zero]
  rfl

theorem IsZero.toBits {x : Float} (h : IsZero x) :
    x.toBits = 0 ∨ x.toBits = 0x8000000000000000 := by
  obtain ⟨s, zero⟩ := h
  obtain ⟨⟨⟨bits⟩, valid⟩⟩ := x
  change UnpackedFloat.unpack .binary64 bits = .zero s at zero
  have fields := fields_unpack bits
  have none : (@unpackMantissa .binary64 bits).toNat = 0 ∧
      (@unpackExponent .binary64 bits).toNat = 0 := by
    generalize UnpackedFloat.unpack .binary64 bits = u at fields zero
    cases fields <;> cases zero
    next low none => exact ⟨congrArg BitVec.toNat none, congrArg BitVec.toNat low⟩
  rw [toNat_unpackMantissa, toNat_unpackExponent] at none
  have := bits.isLt
  have either : bits = 0#64 ∨ bits = 0x8000000000000000#64 := by
    rw [← BitVec.toNat_inj, ← BitVec.toNat_inj]
    simp only [BitVec.toNat_ofNat]
    omega
  rcases either with rfl | rfl
  · exact .inl rfl
  · exact .inr rfl

theorem IsZero.toInteger? {x : Float} (h : IsZero x) : Number.toInteger? x = some 0 := by
  unfold Number.toInteger? Binary.ofFloat isNegative
  rw [h.isFinite]
  rcases h.toBits with bits | bits
  · rw [bits]
    decide
  · rw [bits]
    decide

end DiscreteMath.Number
