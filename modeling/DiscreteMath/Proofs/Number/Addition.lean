import DiscreteMath.Proofs.Number.Multiplication
import DiscreteMath.Proofs.Number.Rounding

/-!
# Sums and differences of floats

A sum of finite floats is finite or infinite, never undefined. An infinite float absorbs every
finite one: it remains what it is when a finite float is added or subtracted. Both are shown before
the result is stored, where a difference is the sum with the negative.
-/

namespace DiscreteMath.Number

open Float.Model Float.Model.UnpackedFloat

variable {x y : Float} {u v : UnpackedFloat}

/-! ### Before the result is stored -/

theorem unpacked_isFinite_neg (v : UnpackedFloat) : v.neg.isFinite = v.isFinite := by
  cases v <;> rfl

theorem unpacked_sub (u v : UnpackedFloat) :
    UnpackedFloat.sub .binary64 u v = UnpackedFloat.add .binary64 u v.neg := by
  have apply_neg (s : Sign) (m : Nat) : (-s).apply m = -s.apply m := by
    cases s
    · exact (Int.neg_neg _).symm
    · rfl
  cases u <;> cases v <;> first
    | rfl
    | simp only [UnpackedFloat.sub, UnpackedFloat.add, UnpackedFloat.neg, apply_neg,
        Int.sub_eq_add_neg]

theorem unpacked_infinity_add (s : Sign) (finite : v.isFinite = true) :
    UnpackedFloat.add .binary64 (.infinity s) v = .infinity s := by
  cases v <;> first | contradiction | rfl

theorem isNaN_normalize (m : Int) (e : Int) (s : Sign) :
    (UnpackedFloat.normalize .binary64 m e s).isNaN = false := by
  unfold UnpackedFloat.normalize
  split
  · exact isNaN_roundWithAccuracy ..
  · rfl
  · exact isNaN_roundWithAccuracy ..

theorem unpacked_isNaN_add (left : u.isFinite = true) (right : v.isFinite = true) :
    (UnpackedFloat.add .binary64 u v).isNaN = false := by
  cases u <;> cases v <;> first
    | exact isNaN_normalize ..
    | contradiction
    | rfl
    | (rw [UnpackedFloat.add]; split <;> rfl)

/-! ### Infinite floats -/

/-- A float is stored as it is. -/
theorem eq_of_toModel_eq_pack (packed : x.toModel = Float.Model.pack y.toModel.unpack) :
    x = y := by
  rw [← ofBits_toBits y]
  exact toModel_injective packed

/-- An infinite float absorbs what is added before the result is stored. -/
theorem ofModel_add_of_isInf (infinite : x.isInf = true) (finite : v.isFinite = true) :
    Float.ofModel (Float.Model.pack (UnpackedFloat.add .binary64 x.toModel.unpack v)) = x := by
  obtain ⟨s, sign⟩ := (isInf_iff x).mp infinite
  refine eq_of_toModel_eq_pack (congrArg Float.Model.pack ?_)
  rw [sign]
  exact unpacked_infinity_add s finite

theorem add_of_isInf (infinite : x.isInf = true) (finite : y.isFinite = true) : x + y = x :=
  ofModel_add_of_isInf infinite finite

theorem sub_of_isInf (infinite : x.isInf = true) (finite : y.isFinite = true) : x - y = x := by
  change Float.ofModel (Float.Model.pack (UnpackedFloat.sub _ _ _)) = x
  rw [unpacked_sub]
  exact ofModel_add_of_isInf infinite ((unpacked_isFinite_neg _).trans finite)

/-! ### Sums and differences of finite floats -/

theorem isNaN_add (left : x.isFinite = true) (right : y.isFinite = true) :
    (x + y).isNaN = false :=
  isNaN_pack (unpacked_isNaN_add left right)

theorem isNaN_sub (left : x.isFinite = true) (right : y.isFinite = true) :
    (x - y).isNaN = false := by
  refine isNaN_pack ?_
  rw [unpacked_sub]
  exact unpacked_isNaN_add left ((unpacked_isFinite_neg _).trans right)

/-- A sum of numbers, one of which is finite, is a number. -/
theorem isNaN_add_of_isFinite (left : x.isNaN = false) (right : y.isFinite = true) :
    (x + y).isNaN = false := by
  by_cases finite : x.isFinite = true
  · exact isNaN_add finite right
  · rwa [add_of_isInf (isInf_of_not_isFinite left finite) right]

end DiscreteMath.Number
