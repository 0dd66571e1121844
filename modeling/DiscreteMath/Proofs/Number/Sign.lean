import DiscreteMath.Proofs.Number.Magnitude
import DiscreteMath.Proofs.Number.ReadingBack

/-!
# The sign of a float

The sign of a finite float is stored apart from its magnitude: it can be taken away and be given
back. So the shortest notation of a finite float is a sign, if it has one, and that of its
magnitude, and it is read as that float.
-/

namespace DiscreteMath.Number

open Float.Model Float.Model.UnpackedFloat

/-! ### Magnitudes -/

variable {x : Float}

/-- What is stored of a finite float apart from its sign does not depend on the sign. -/
theorem unpack_pack_finite {s : Sign} {m : Nat} {e : Int} {positive : 0 < m}
    (unpacked : x.toModel.unpack = .finite s m e positive) (t : Sign) :
    (Float.Model.pack (.finite t m e positive)).unpack = .finite t m e positive := by
  obtain ⟨⟨⟨bits⟩, valid⟩⟩ := x
  change UnpackedFloat.unpack .binary64 bits = _ at unpacked
  have packed : UnpackedFloat.pack .binary64 (.finite s m e positive) = bits := by
    rw [← unpacked]
    exact pack_unpack valid
  have fields : UnpackedFloat.pack .binary64 (.finite t m e positive) =
      packComponents .binary64 t (unpackExponent bits) (unpackMantissa bits) := by
    unfold UnpackedFloat.pack at packed ⊢
    dsimp only at packed ⊢
    split_ifs at packed ⊢ with large
    · have infinite : (UnpackedFloat.unpack .binary64
          (packedInfinity .binary64 s)).isFinite = false := by
        cases s <;> decide +kernel
      rw [packed, unpacked] at infinite
      cases infinite
    · rw [← packed, unpackExponent_packComponents, unpackMantissa_packComponents]
    · rw [← packed, unpackExponent_packComponents, unpackMantissa_packComponents]
  change UnpackedFloat.unpack .binary64 (UnpackedFloat.pack .binary64 _) = _
  rw [fields]
  have sign : Sign.ofBitVec t.toBitVec = t := by cases t <;> rfl
  simp only [UnpackedFloat.unpack, unpackExponent_packComponents, unpackMantissa_packComponents,
    unpackSign_packComponents, sign] at unpacked ⊢
  split_ifs at unpacked ⊢
  all_goals
    injection unpacked with _ mantissa exponent
    congr

theorem unpack_abs (finite : x.isFinite = true) :
    x.abs.toModel.unpack = x.toModel.unpack.abs := by
  change (Float.Model.pack x.toModel.unpack.abs).unpack = _
  rw [isFinite_iff] at finite
  cases unpacked : x.toModel.unpack with
  | infinity s | notANumber =>
    rw [unpacked] at finite
    cases finite
  | zero s =>
    change (0 : Float).toModel.unpack = .zero .positive
    rfl
  | finite s m e positive => exact unpack_pack_finite unpacked .positive

/-- A float with a sign is the negative of its magnitude. -/
theorem neg_abs_unpack (sign : isNegative x = true) :
    x.toModel.unpack.abs.neg = x.toModel.unpack := by
  have some : x.toBits.toNat / 2 ^ 63 ≠ 0 := fun none =>
    absurd (isNegative_eq_false_iff.mpr none) (by simp [sign])
  obtain ⟨⟨⟨bits⟩, valid⟩⟩ := x
  have negative : Sign.ofBitVec (@unpackSign .binary64 bits) = .negative := by
    refine if_neg fun zero => ?_
    have bit := toNat_unpackSign bits
    have bound : bits.toNat < 2 ^ 64 := bits.isLt
    change bits.toNat / 2 ^ 63 ≠ 0 at some
    rw [zero, BitVec.toNat_ofNat] at bit
    omega
  change (UnpackedFloat.unpack .binary64 bits).abs.neg = UnpackedFloat.unpack .binary64 bits
  have fields := fields_unpack bits
  generalize UnpackedFloat.unpack .binary64 bits = u at fields
  cases fields with
  | notANumber => rfl
  | infinity | zero | subnormal | normal =>
    rw [negative]
    rfl

theorem neg_abs (finite : x.isFinite = true) (sign : isNegative x = true) : -x.abs = x := by
  refine eq_of_toModel_eq_pack ?_
  change Float.Model.pack x.abs.toModel.unpack.neg = _
  rw [unpack_abs finite, neg_abs_unpack sign]

theorem isNegative_abs (finite : x.isFinite = true) : isNegative x.abs = false := by
  refine eq_false_of_ne_true fun sign => ?_
  have same := neg_abs_unpack sign
  rw [unpack_abs finite] at same
  rw [isFinite_iff] at finite
  generalize x.toModel.unpack = u at finite same
  cases u <;> cases finite <;> cases same

theorem abs_beq_zero (finite : x.isFinite = true) : (x.abs == 0) = (x == 0) := by
  rw [Bool.eq_iff_iff, beq_zero_iff, beq_zero_iff, IsZero, IsZero, unpack_abs finite]
  cases x.toModel.unpack <;> simp [UnpackedFloat.abs]

/-! ### The shortest notation -/

theorem shortest_of_isNegative (finite : x.isFinite = true) (sign : isNegative x = true) :
    shortest x = "-" ++ shortest x.abs := by
  obtain ⟨notNaN, notInf⟩ := ordinary_of_isFinite finite
  obtain ⟨notNaN', notInf'⟩ := ordinary_of_isFinite (isFinite_abs finite)
  have unsigned := isNegative_abs finite
  simp only [shortest, signed, notNaN, notInf, notNaN', notInf', sign, unsigned, abs_eq unsigned,
    abs_beq_zero finite, Bool.false_eq_true, if_false, if_true]

/-- The shortest notation of a finite float spells its magnitude, after a minus if the float has a
sign. -/
theorem exists_spelling_shortest (finite : x.isFinite = true) : ∃ s : Spelling,
    (shortest x).toList = (if isNegative x then ['-'] else []) ++ s.text ∧
      s.decimal.toFloat = x.abs := by
  cases sign : isNegative x with
  | false =>
    obtain ⟨s, written, value⟩ := exists_shortest finite sign
    exact ⟨s, written, value.trans (abs_eq sign).symm⟩
  | true =>
    obtain ⟨s, written, value⟩ := exists_shortest (isFinite_abs finite) (isNegative_abs finite)
    refine ⟨s, ?_, value⟩
    rw [shortest_of_isNegative finite sign, String.toList_append, written]
    rfl

theorem Spelling.number?_minus (s : Spelling) :
    number? ('-' :: s.text) = some (-s.decimal.toFloat) := by
  obtain ⟨c, more, split, digit⟩ := s.exists_head
  have unsigned : splitSign s.text = (false, s.text) := by
    rw [split]
    unfold splitSign
    split <;> simp_all [Char.isDigit]
  have read := s.number?_text
  simp only [number?, unsigned, Bool.false_eq_true, if_false, Option.map_id'] at read
  simp [number?, splitSign, read]

/-- What the shortest notation writes for a finite float is read as that float. -/
theorem number?_shortest (finite : x.isFinite = true) : number? (shortest x).toList = some x := by
  obtain ⟨s, written, value⟩ := exists_spelling_shortest finite
  rw [written]
  cases sign : isNegative x with
  | false => exact s.number?_text.trans (congrArg some (value.trans (abs_eq sign)))
  | true =>
    exact s.number?_minus.trans (congrArg some ((congrArg _ value).trans (neg_abs finite sign)))

/-! ### The notation in sets -/

theorem mem_plain (finite : x.isFinite = true) {c : Char} (member : c ∈ (plain x).toList) :
    c.isDigit = true ∨ c = '.' ∨ c = '-' := by
  rw [plain] at member
  split at member
  · exact .inl (by simp_all)
  · obtain ⟨s, written, -⟩ := exists_spelling_shortest finite
    rw [written, Spelling.text] at member
    have whole := s.wholeDigits c
    have fraction := s.fractionDigits c
    grind

theorem plain_ne_empty (finite : x.isFinite = true) : (plain x).toList ≠ [] := by
  rw [plain]
  split
  · exact List.cons_ne_nil _ _
  · obtain ⟨s, written, -⟩ := exists_spelling_shortest finite
    obtain ⟨c, more, split, -⟩ := s.exists_head
    rw [written, split]
    simp

/-- What is written for a finite float in a set is read as that float, and for any zero the zero
without a sign. -/
theorem number?_plain (finite : x.isFinite = true) :
    ∃ y, number? (plain x).toList = some y ∧ (y = x ∨ y = 0 ∧ IsZero x) ∧ plain y = plain x := by
  rw [plain]
  split
  next zero => exact ⟨0, rfl, .inr ⟨rfl, (beq_zero_iff x).mp zero⟩, rfl⟩
  next other => exact ⟨x, number?_shortest finite, .inl rfl, if_neg other⟩

end DiscreteMath.Number
