import DiscreteMath.Number.Literal
import DiscreteMath.Number.Notation
import DiscreteMath.Proofs.Number.Rounding
import DiscreteMath.Proofs.Text.Pieces
import Mathlib

/-!
# Numbers that read back

The float of a decimal depends on its value alone. What the shortest notation writes for a finite
float without a sign is digits, perhaps with a point between them, and is read as the same float.

## Main definitions

* `Decimal.value` — the value as a rational number.
* `Spelling` — digits, perhaps with a point between them.
-/

namespace DiscreteMath.Number

/-! ### Digits -/

theorem digitsValue_eq (ds : List Char) : digitsValue ds = Nat.ofDigitChars 10 ds 0 :=
  Nat.ofDigitChars_eq_foldl.symm

theorem digitsValue_digits (n : Nat) : digitsValue (digits n) = n := by
  rw [digitsValue_eq, digits, Nat.ofDigitChars_ten_toDigits]

theorem digitsValue_append_zeros (ds : List Char) (n : Nat) :
    digitsValue (ds ++ List.replicate n '0') = digitsValue ds * 10 ^ n := by
  rw [digitsValue_eq, digitsValue_eq, Nat.ofDigitChars_append, Nat.ofDigitChars_replicate_zero,
    Nat.mul_comm]

theorem digitsValue_zeros_append (n : Nat) (ds : List Char) :
    digitsValue (List.replicate n '0' ++ ds) = digitsValue ds := by
  rw [digitsValue_eq, digitsValue_eq, Nat.ofDigitChars_append, Nat.ofDigitChars_replicate_zero,
    Nat.mul_zero]

theorem isDigit_of_mem_digits {n : Nat} {c : Char} (h : c ∈ digits n) : c.isDigit = true :=
  Nat.isDigit_of_mem_toDigits (by decide) (by decide) h

theorem length_digits_pos (n : Nat) : 0 < (digits n).length := Nat.length_toDigits_pos

theorem length_digits {n : Nat} (positive : 0 < n) :
    ((digits n).length : ℤ) = Int.log 10 (n : ℚ) + 1 := by
  have bound (k : Nat) (hk : 0 < k) : (digits n).length ≤ k ↔ Nat.log 10 n < k :=
    (Nat.length_toDigits_le_iff (by decide) hk).trans
      (Nat.log_lt_iff_lt_pow (by decide) positive.ne').symm
  have low := (bound _ (length_digits_pos n)).mp le_rfl
  have high := (bound (Nat.log 10 n + 1) (Nat.succ_pos _)).mpr (Nat.lt_succ_self _)
  rw [Int.log_natCast]
  omega

/-! ### The value of a decimal -/

namespace Decimal

def value (d : Decimal) : ℚ := d.coefficient * 10 ^ d.exponent

theorem value_eq (d : Decimal) : d.value =
    (d.coefficient * Nat.pow 10 d.exponent.toNat : Nat) /
      (Nat.pow 10 (-d.exponent).toNat : Nat) := by
  simp [value, zpow_eq_div, mul_div_assoc]

theorem scale_pos (k : Nat) : 0 < Nat.pow 10 k := Nat.pow_pos (by decide)

theorem value_eq_zero {d : Decimal} : d.value = 0 ↔ d.coefficient = 0 := by
  have scale : (10 : ℚ) ^ d.exponent ≠ 0 := by positivity
  simp [value, scale]

theorem value_pos {d : Decimal} (positive : 0 < d.coefficient) : 0 < d.value := by
  unfold value
  positivity

/-- Where the leading digit stands. -/
theorem length_add_exponent {d : Decimal} (positive : 0 < d.coefficient) :
    ((digits d.coefficient).length : ℤ) + d.exponent = Int.log 10 d.value + 1 := by
  have coefficient : (0 : ℚ) < d.coefficient := by exact_mod_cast positive
  have log : Int.log 10 d.value = Int.log 10 (d.coefficient : ℚ) + d.exponent := by
    refine eq_of_forall_le_iff fun z => ?_
    rw [← Int.zpow_le_iff_le_log (by decide) (value_pos positive), ← sub_le_iff_le_add,
      ← Int.zpow_le_iff_le_log (by decide) coefficient, zpow_sub₀ (by norm_num), value,
      div_le_iff₀ (by positivity)]
    norm_cast
  rw [length_digits positive, log]
  ring

/-- Decimals of one value have one float. -/
theorem toFloat_congr {d d' : Decimal} (same : d.value = d'.value) : d.toFloat = d'.toFloat := by
  by_cases zero : d.coefficient = 0
  · have zero' : d'.coefficient = 0 := by rwa [← value_eq_zero, ← same, value_eq_zero]
    rw [toFloat, toFloat, if_pos zero, if_pos zero']
  · have zero' : d'.coefficient ≠ 0 := by rwa [ne_eq, ← value_eq_zero, ← same, value_eq_zero]
    have quotient := same
    rw [value_eq, value_eq] at quotient
    have rounded := nearest_congr (scale_pos _) (scale_pos _) quotient
    simp only [toFloat, if_neg zero, if_neg zero', length_add_exponent (Nat.pos_of_ne_zero zero),
      length_add_exponent (Nat.pos_of_ne_zero zero'), same]
    rw [rounded]

/-- A decimal in the range of the finite floats has the nearest float to its value. -/
theorem toFloat_eq_nearest {d : Decimal} {n k : Nat} (hk : 0 < k) (same : d.value = n / k)
    (low : (10 : ℚ) ^ (-331 : ℤ) ≤ d.value) (high : d.value < 10 ^ (310 : ℤ)) :
    d.toFloat = nearest n k := by
  have positive : 0 < d.value := lt_of_lt_of_le (by positivity) low
  have coefficient : d.coefficient ≠ 0 := fun zero => positive.ne' (value_eq_zero.mpr zero)
  have low := (Int.zpow_le_iff_le_log (b := 10) (by decide) positive).mp low
  have high := (Int.lt_zpow_iff_log_lt (b := 10) (by decide) positive).mp high
  rw [value_eq] at same
  simp only [toFloat, if_neg coefficient, length_add_exponent (Nat.pos_of_ne_zero coefficient)]
  rw [if_neg (by omega), if_neg (by omega)]
  exact nearest_congr (scale_pos _) hk same

/-- The float of a decimal has no sign, and it is finite unless it is the infinity. -/
theorem toFloat_unsigned (d : Decimal) : isNegative d.toFloat = false ∧
    (d.toFloat.isFinite = true ∨ d.toFloat = 1.0 / 0.0) := by
  have infinity : (1.0 / 0.0 : Float).toBits.toNat = infinityBits := by decide +kernel
  have bound : d.toFloat.toBits.toNat ≤ infinityBits := by
    unfold toFloat
    dsimp only
    split_ifs
    · exact Nat.zero_le _
    · exact infinity.le
    · exact Nat.zero_le _
    · exact toBits_nearest_le _ _
  rcases bound.lt_or_eq with less | same
  · obtain ⟨finite, sign⟩ := toBits_lt_infinityBits_iff.mp less
    exact ⟨sign, .inl finite⟩
  · have same : d.toFloat = 1.0 / 0.0 :=
      toBits_injective (UInt64.toNat_inj.mp (same.trans infinity.symm))
    refine ⟨?_, .inr same⟩
    rw [same]
    decide +kernel

theorem value_stripped (places coefficient : Nat) :
    (stripped coefficient places).value = coefficient * 10 ^ (-(places : ℤ)) := by
  induction places generalizing coefficient with
  | zero => rfl
  | succ places ih =>
    rw [stripped]
    split
    next whole =>
      have tenth : (coefficient : ℚ) = (coefficient / 10 : Nat) * 10 := by
        exact_mod_cast (Nat.div_mul_cancel (Nat.dvd_of_mod_eq_zero whole)).symm
      have scale : (10 : ℚ) ^ (-(places : ℤ)) = 10 * 10 ^ (-((places + 1 : Nat) : ℤ)) := by
        rw [← zpow_one_add₀ (by norm_num)]
        congr 1
        push_cast
        ring
      rw [ih, tenth, scale, mul_assoc]
    next => rfl

theorem value_normalize (d : Decimal) : d.normalize.value = d.value := by
  unfold normalize
  split
  next negative =>
    rw [value_stripped, value, Int.ofNat_natAbs_of_nonpos negative.le, neg_neg]
  next => rfl

end Decimal

theorem value_exactDecimal (b : Binary) : (exactDecimal b).value = b.value := by
  rcases Int.le_total 0 b.exponent with whole | small
  · have none : (-b.exponent).toNat = 0 := by omega
    have shift : (2 : ℚ) ^ b.exponent.toNat = 2 ^ b.exponent := by
      rw [← zpow_natCast, Int.toNat_of_nonneg whole]
    simp [Decimal.value, exactDecimal, Binary.value, Binary.numerator, Nat.shiftLeft_eq, none,
      min_eq_right whole, shift]
  · have none : b.exponent.toNat = 0 := by omega
    have shift : (5 : ℚ) ^ (-b.exponent).toNat = 5 ^ (-b.exponent) := by
      rw [← zpow_natCast, Int.toNat_of_nonneg (by omega)]
    have ten : (10 : ℚ) ^ b.exponent = 2 ^ b.exponent * 5 ^ b.exponent := by
      rw [← mul_zpow]
      norm_num
    have cancel : (5 : ℚ) ^ (-b.exponent) * 5 ^ b.exponent = 1 := by
      rw [← zpow_add₀ (by norm_num), neg_add_cancel, zpow_zero]
    simp only [Decimal.value, exactDecimal, Binary.value, Binary.numerator, Nat.shiftLeft_eq, none,
      min_eq_left small, ten]
    push_cast
    rw [Nat.pow_eq, Nat.cast_pow, Nat.cast_ofNat, shift, mul_one]
    linear_combination (b.mantissa * 2 ^ b.exponent : ℚ) * cancel

/-! ### The shortest decimal -/

theorem exponent_ofFloat_le {x : Float} (finite : x.isFinite = true) (sign : isNegative x = false) :
    (Binary.ofFloat x).exponent ≤ 971 := by
  have bound := toBits_lt_infinityBits_iff.mpr ⟨finite, sign⟩
  rw [infinityBits_eq] at bound
  rw [Binary.ofFloat_eq]
  split <;> dsimp only <;> omega

/-- The least float is above `10 ^ (-331)`. -/
theorem ten_zpow_le : (10 : ℚ) ^ (-331 : ℤ) ≤ 2 ^ (-1074 : ℤ) := by
  have powers : (2 : ℚ) ^ 1074 ≤ 10 ^ 331 := by
    exact_mod_cast (by decide +kernel : 2 ^ 1074 ≤ 10 ^ 331)
  rw [zpow_neg, zpow_neg]
  exact inv_anti₀ (by positivity) (by exact_mod_cast powers)

/-- The finite floats are below `10 ^ 310`. -/
theorem le_ten_zpow : (2 : ℚ) ^ 53 * 2 ^ (971 : ℤ) ≤ 10 ^ (310 : ℤ) := by
  exact_mod_cast (by decide +kernel : 2 ^ 53 * 2 ^ 971 ≤ 10 ^ 310)

theorem Binary.Canonical.value_bounds {b : Binary} (canonical : b.Canonical)
    (positive : 0 < b.mantissa) (exponent : b.exponent ≤ 971) :
    (10 : ℚ) ^ (-331 : ℤ) ≤ b.value ∧ b.value < 10 ^ (310 : ℤ) := by
  constructor
  · calc (10 : ℚ) ^ (-331 : ℤ) ≤ 2 ^ (-1074 : ℤ) := ten_zpow_le
      _ = 1 * 2 ^ (-1074 : ℤ) := (one_mul _).symm
      _ ≤ b.mantissa * 2 ^ b.exponent := by
        gcongr
        · exact_mod_cast positive
        · norm_num
        · exact canonical.least
  · calc (b.mantissa : ℚ) * 2 ^ b.exponent < 2 ^ 53 * 2 ^ b.exponent := by
          gcongr
          exact_mod_cast canonical.short
      _ ≤ 2 ^ 53 * 2 ^ (971 : ℤ) := by
          gcongr
          norm_num
      _ ≤ 10 ^ (310 : ℤ) := le_ten_zpow

/-- The value of a finite float, written out, is read back. -/
theorem toFloat_exactDecimal {x : Float} (finite : x.isFinite = true) (sign : isNegative x = false)
    (positive : 0 < (Binary.ofFloat x).mantissa) :
    (exactDecimal (Binary.ofFloat x)).toFloat = x := by
  have quotient := (value_exactDecimal (Binary.ofFloat x)).trans (Binary.value_eq _)
  obtain ⟨low, high⟩ := (Binary.canonical_ofFloat x).value_bounds positive
    (exponent_ofFloat_le finite sign)
  rw [← value_exactDecimal] at low high
  rw [Decimal.toFloat_eq_nearest (Binary.denominator_pos _) quotient low high]
  exact toFloat_ofFloat finite sign positive

theorem toFloat_of_readingBack? {x : Float} {exponent : Int} {d : Decimal}
    (found : readingBack? x exponent = some d) : d.toFloat = x := by
  unfold readingBack? at found
  grind [toBits_injective]

theorem toFloat_shortestDecimal {x : Float} (finite : x.isFinite = true)
    (sign : isNegative x = false) (positive : 0 < (Binary.ofFloat x).mantissa) :
    (shortestDecimal x).toFloat = x := by
  rw [shortestDecimal]
  refine (Decimal.toFloat_congr (Decimal.value_normalize _)).trans ?_
  cases found : (List.range 17).findSome? fun (n : Nat) =>
      readingBack? x ((Binary.ofFloat x).magnitude - (n + 1)) with
  | none => exact toFloat_exactDecimal finite sign positive
  | some d =>
    obtain ⟨n, -, reads⟩ := List.exists_of_findSome?_eq_some found
    exact toFloat_of_readingBack? reads

/-! ### Positional notation -/

theorem toLower_of_begins {c : Char} (begins : c.isDigit = true ∨ c = '.') : c.toLower = c := by
  refine Char.toLower_eq_of_not_isUpper fun upper => ?_
  rcases begins with digit | rfl
  · simp only [Char.isDigit, Char.isUpper, Bool.and_eq_true, decide_eq_true_eq, ge_iff_le,
      UInt32.le_iff_toNat_le] at digit upper
    exact absurd (upper.1.trans digit.2) (by decide)
  · cases upper

/-- What begins with a digit or a point is read as a decimal. -/
theorem number?_cons {c : Char} (begins : c.isDigit = true ∨ c = '.') (more : List Char) :
    number? (c :: more) = (decimal? (c :: more)).map Decimal.toFloat := by
  have other {d : Char} (noDigit : d.isDigit = false) (noPoint : d ≠ '.') : c ≠ d := by
    rintro rfl
    rcases begins with digit | point
    · rw [digit] at noDigit
      cases noDigit
    · exact noPoint point
  have unnamed (name : String) {d : Char} (head : name.toList.head? = some d) (letter : c ≠ d) :
      (String.ofList ((c :: more).map Char.toLower) == name) = false := by
    refine beq_eq_false_iff_ne.mpr fun same => letter ?_
    rw [← same, String.toList_ofList, List.map_cons, toLower_of_begins begins] at head
    exact Option.some.inj head
  have unsigned : splitSign (c :: more) = (false, c :: more) := by
    unfold splitSign
    split
    next same => exact absurd (List.cons.inj same).1 (other rfl (by decide))
    next same => exact absurd (List.cons.inj same).1 (other rfl (by decide))
    next => rfl
  have magnitude : magnitude? (c :: more) = (decimal? (c :: more)).map Decimal.toFloat := by
    unfold magnitude?
    simp only [unnamed "inf" rfl (other rfl (by decide)),
      unnamed "infinity" rfl (other rfl (by decide)),
      unnamed "nan" rfl (other rfl (by decide)), Bool.or_self, Bool.false_eq_true,
      if_false]
  simp [number?, unsigned, magnitude, Function.comp_def]

/-- Digits, perhaps with a point and more digits behind it. -/
structure Spelling where
  whole : List Char
  fraction : List Char
  nonempty : whole ≠ []
  wholeDigits : ∀ c ∈ whole, c.isDigit = true
  fractionDigits : ∀ c ∈ fraction, c.isDigit = true

namespace Spelling

def text (s : Spelling) : List Char :=
  s.whole ++ if s.fraction = [] then [] else '.' :: s.fraction

def decimal (s : Spelling) : Decimal := ⟨digitsValue (s.whole ++ s.fraction), -s.fraction.length⟩

theorem exists_head (s : Spelling) : ∃ c more, s.text = c :: more ∧ c.isDigit = true := by
  obtain ⟨whole, fraction, nonempty, digits, _⟩ := s
  obtain ⟨c, more, rfl⟩ := List.exists_cons_of_ne_nil nonempty
  exact ⟨c, _, rfl, digits c List.mem_cons_self⟩

theorem decimal?_text (s : Spelling) : decimal? s.text = some s.decimal := by
  obtain ⟨whole, fraction, nonempty, wholeDigits, fractionDigits⟩ := s
  have last : ∀ c ∈ ([] : List Char).head?, c.isDigit = false := nofun
  by_cases none : fraction = []
  · subst none
    obtain ⟨taken, dropped⟩ := Text.span_run wholeDigits last
    rw [List.append_nil] at taken dropped
    simp [decimal?, text, decimal, taken, dropped, nonempty, exponent?]
  · have apart : ∀ c ∈ ('.' :: fraction).head?, c.isDigit = false := by simp
    obtain ⟨taken, dropped⟩ := Text.span_run wholeDigits apart
    obtain ⟨taken', dropped'⟩ := Text.span_run fractionDigits last
    rw [List.append_nil] at taken' dropped'
    simp [decimal?, text, decimal, none, taken, dropped, taken', dropped', nonempty, exponent?]

theorem number?_text (s : Spelling) : number? s.text = some s.decimal.toFloat := by
  obtain ⟨c, more, split, digit⟩ := s.exists_head
  rw [split, number?_cons (.inl digit), ← split, decimal?_text, Option.map_some]

end Spelling

theorem isDigit_of_mem_zeros {n : Nat} {c : Char} (h : c ∈ List.replicate n '0') :
    c.isDigit = true := by
  rw [List.eq_of_mem_replicate h]
  rfl

/-- Digits on both sides of a point. -/
theorem exists_pointed {whole fraction : List Char} (before : whole ≠ []) (after : fraction ≠ [])
    (shown : ∀ c ∈ whole ++ fraction, c.isDigit = true) :
    ∃ s : Spelling, s.text = whole ++ '.' :: fraction ∧
      s.decimal = ⟨digitsValue (whole ++ fraction), -fraction.length⟩ := by
  obtain ⟨wholeDigits, fractionDigits⟩ := List.forall_mem_append.mp shown
  refine ⟨⟨whole, fraction, before, wholeDigits, fractionDigits⟩, ?_, rfl⟩
  simp [Spelling.text, after]

theorem Decimal.exists_spelling (d : Decimal) :
    ∃ s : Spelling, s.text = d.positional ∧ s.decimal.value = d.value := by
  obtain ⟨c, e⟩ := d
  have some : digits c ≠ [] := List.length_pos_iff.mp (length_digits_pos c)
  have shown : ∀ x ∈ digits c, x.isDigit = true := fun _ => isDigit_of_mem_digits
  unfold positional
  dsimp only
  split
  next whole =>
    refine ⟨⟨digits c ++ List.replicate e.natAbs '0', [], by simp [some], ?_, nofun⟩, ?_, ?_⟩
    · exact List.forall_mem_append.mpr ⟨shown, fun _ => isDigit_of_mem_zeros⟩
    · simp [Spelling.text]
    · have scale : (10 : ℚ) ^ e.natAbs = 10 ^ e := by
        rw [← zpow_natCast, Int.natAbs_of_nonneg whole]
      simp [Spelling.decimal, value, digitsValue_append_zeros, digitsValue_digits, scale]
  next fractional =>
    split
    next pointed =>
      obtain ⟨n, split⟩ := Int.eq_ofNat_of_zero_le pointed.le
      have before : (digits c).take n ≠ [] := by
        rw [ne_eq, List.take_eq_nil_iff, not_or]
        exact ⟨by omega, some⟩
      have after : (digits c).drop n ≠ [] := by
        rw [ne_eq, List.drop_eq_nil_iff]
        omega
      have places : -(((digits c).drop n).length : ℤ) = e := by
        rw [List.length_drop]
        omega
      obtain ⟨s, text, decimal⟩ := exists_pointed before after (by simpa using shown)
      refine ⟨s, by rw [text, split, Int.toNat_natCast], ?_⟩
      rw [decimal, List.take_append_drop, digitsValue_digits, places]
    next small =>
      set zeros := List.replicate ((digits c).length + e).natAbs '0' with rfl
      have after : zeros ++ digits c ≠ [] := by simp [some]
      have places : -((zeros ++ digits c).length : ℤ) = e := by
        simp only [zeros, List.length_append, List.length_replicate]
        omega
      have same : digitsValue (['0'] ++ (zeros ++ digits c)) = c := by
        rw [← List.append_assoc, ← List.replicate_one, List.replicate_append_replicate,
          digitsValue_zeros_append, digitsValue_digits]
      have listed : ∀ x ∈ ['0'] ++ (zeros ++ digits c), x.isDigit = true := by
        rw [← List.append_assoc, ← List.replicate_one, List.replicate_append_replicate]
        exact List.forall_mem_append.mpr ⟨fun _ => isDigit_of_mem_zeros, shown⟩
      obtain ⟨s, text, decimal⟩ := exists_pointed (List.cons_ne_nil _ _) after listed
      refine ⟨s, text, ?_⟩
      rw [decimal, same, places]

/-- A finite float is neither the undefined number nor an infinity. -/
theorem ordinary_of_isFinite {x : Float} (finite : x.isFinite = true) :
    x.isNaN = false ∧ x.isInf = false := by
  change x.toModel.unpack.isFinite = true at finite
  change x.toModel.unpack.isNaN = false ∧ x.toModel.unpack.isInf = false
  cases unpacked : x.toModel.unpack <;> first
    | exact ⟨rfl, rfl⟩
    | rw [unpacked] at finite; cases finite

theorem eq_zero_of_mantissa {x : Float} (sign : isNegative x = false)
    (zero : (Binary.ofFloat x).mantissa = 0) : x = 0 := by
  have positive := isNegative_eq_false_iff.mp sign
  refine toBits_injective (UInt64.toNat_inj.mp ?_)
  change x.toBits.toNat = 0
  rw [Binary.ofFloat_eq] at zero
  split at zero <;> dsimp only at zero <;> omega

theorem eq_zero_of_beq {x : Float} (sign : isNegative x = false) (zero : (x == 0) = true) :
    x = 0 := by
  rcases (beq_iff x 0).mp zero with ⟨same, -⟩ | ⟨isZero, -⟩
  · exact same
  · rcases isZero.toBits with bits | bits
    · exact toBits_injective bits
    · rw [isNegative, bits] at sign
      cases sign

/-- What the shortest notation writes for a finite float without a sign is read as that float. -/
theorem exists_shortest {x : Float} (finite : x.isFinite = true) (sign : isNegative x = false) :
    ∃ s : Spelling, (shortest x).toList = s.text ∧ s.decimal.toFloat = x := by
  obtain ⟨notNaN, notInf⟩ := ordinary_of_isFinite finite
  have written : shortest x = if (x == 0) = true then "0"
      else String.ofList (shortestDecimal x).positional := by
    simp only [shortest, signed, notNaN, notInf, sign, abs_eq sign, Bool.false_eq_true, if_false]
  rw [written]
  split
  next zero =>
    refine ⟨⟨['0'], [], by simp, by simp, nofun⟩, rfl, ?_⟩
    rw [eq_zero_of_beq sign zero]
    rfl
  next other =>
    obtain ⟨s, spelled, value⟩ := (shortestDecimal x).exists_spelling
    refine ⟨s, by rw [String.toList_ofList, spelled], ?_⟩
    rw [Decimal.toFloat_congr value]
    refine toFloat_shortestDecimal finite sign (Nat.pos_of_ne_zero fun none => other ?_)
    rw [eq_zero_of_mantissa sign none]
    rfl

end DiscreteMath.Number
