import DiscreteMath.Proofs.Number.Magnitude
import DiscreteMath.Proofs.Sequence.ClosedForm

/-!
# Sums that overflow

The terms of a range are finite, and its product is kept finite. Its sum is not: from the index on
where it overflows it is infinite, and a closed form agrees with it there whatever its value is.

## Main definitions

* `Formula.OverflowsAt` — the index where the partial sums become infinite.
* `Within` — a partial sum is a finite number within the tolerance of the closed form.
-/

namespace DiscreteMath.Sequence

/-! ### Partial sums -/

namespace Formula

variable {f : Formula} {lower stop upper k : Int}

theorem isNaN_sum (defined : ∀ k, lower ≤ k → k < stop → f.Defined k) :
    (f.sum lower stop).isNaN = false := by
  refine List.foldlRecOn (motive := fun x => Float.isNaN x = false) _ _ (by decide +kernel)
    fun x number y member => ?_
  obtain ⟨k, index, rfl⟩ := List.mem_map.mp member
  obtain ⟨low, high⟩ := Int.mem_range_iff.mp index
  exact Number.isNaN_add_of_isFinite number (defined k low high).finite

/-- The first index where the sum is infinite. It stays as it is there. -/
structure OverflowsAt (f : Formula) (lower upper k : Int) : Prop where
  low : lower ≤ k
  high : k ≤ upper
  before : ∀ j, lower ≤ j → j ≤ k → (f.sum lower j).isFinite = true
  infinite : (f.sum lower (k + 1)).isInf = true
  stays : ∀ j, k ≤ j → j ≤ upper → f.sum lower (j + 1) = f.sum lower (k + 1)

/-- An infinite sum absorbs the terms that follow. -/
theorem sum_of_isInf (low : lower ≤ k) (later : k ≤ stop) (infinite : (f.sum lower k).isInf = true)
    (defined : ∀ j, k ≤ j → j < stop → f.Defined j) : f.sum lower stop = f.sum lower k := by
  induction stop, later using Int.leInduction with
  | base => rfl
  | succ stop later ih =>
    have same := ih fun j first last => defined j first (by omega)
    have term := defined stop later (by omega)
    rw [f.sum_succ (by omega), same]
    exact Number.add_of_isInf infinite term.finite

theorem OverflowsAt.isInf_sum (overflows : f.OverflowsAt lower upper k) :
    (f.sum lower (upper + 1)).isInf = true := by
  rw [overflows.stays upper overflows.high le_rfl]
  exact overflows.infinite

/-- All partial sums are finite, or they overflow at some index. -/
theorem finite_or_overflows (defined : ∀ k, lower ≤ k → k ≤ upper → f.Defined k) :
    (∀ k, lower ≤ k → k ≤ upper → (f.sum lower (k + 1)).isFinite = true) ∨
      ∃ k, f.OverflowsAt lower upper k := by
  rcases forall_or_least (fun k => (f.sum lower (k + 1)).isFinite = true) lower upper with
    finite | ⟨k, low, high, before, overflow⟩
  · exact .inl finite
  · have number : (f.sum lower (k + 1)).isNaN = false :=
      isNaN_sum fun j first last => defined j first (by omega)
    have infinite := Number.isInf_of_not_isFinite number overflow
    refine .inr ⟨k, low, high, fun j first last => ?_, infinite, fun j after last => ?_⟩
    · obtain rfl | later := Int.le_iff_eq_or_lt.mp first
      · rw [sum_self]
        decide +kernel
      · have finite := before (j - 1) (by omega) (by omega)
        rwa [sub_add_cancel] at finite
    · exact sum_of_isInf (by omega) (by omega) infinite
        fun i first before => defined i (by omega) (by omega)

end Formula

/-! ### Totals -/

variable {limit : Option Nat} {text closedText : List Char} {lower upper : Int} {s : Summary}
  {report : Report}

/-- The product of a range is finite and its sum is a number. The sum is finite if all partial sums
are. Else it is infinite, from the first index on where a partial sum is. -/
theorem summarize_overflow (ok : (summarize limit text lower upper).summary = .ok s) :
    compile text = .ok s.formula ∧ s.totals.sum = s.formula.sum lower (upper + 1) ∧
      s.totals.product.isFinite = true ∧ s.totals.sum.isNaN = false ∧
      (s.totals.sum.isFinite = true ↔
        ∀ k, lower ≤ k → k ≤ upper → (s.formula.sum lower (k + 1)).isFinite = true) ∧
      (s.totals.sum.isInf = true ↔ ∃ k, s.formula.OverflowsAt lower upper k) := by
  obtain ⟨compiled, evaluates, covers⟩ := summarize_eq_ok ok
  have nonempty := evaluates.nonempty
  have number : (s.formula.sum lower (upper + 1)).isNaN = false :=
    Formula.isNaN_sum fun k low high => evaluates.defined k low (by omega)
  have finite : (s.formula.product lower (upper + 1)).isFinite = true :=
    s.formula.isFinite_product fun k member =>
      let ⟨low, high⟩ := Int.mem_range_iff.mp member
      evaluates.defined k low (by omega)
  have infinite := Number.isInf_of_isNaN number
  rw [covers.sum, covers.product]
  refine ⟨compiled, rfl, finite, number, ⟨fun finite => ?_, fun finite => ?_⟩,
    ⟨fun overflow => ?_, fun ⟨k, overflows⟩ => overflows.isInf_sum⟩⟩
  · refine (Formula.finite_or_overflows evaluates.defined).resolve_right fun ⟨k, overflows⟩ => ?_
    have overflow := overflows.isInf_sum
    rw [infinite, finite] at overflow
    cases overflow
  · exact finite upper nonempty le_rfl
  · refine (Formula.finite_or_overflows evaluates.defined).resolve_left fun finite => ?_
    rw [infinite, finite upper nonempty le_rfl] at overflow
    cases overflow

/-- Two terms near the greatest float overflow when they are added. -/
theorem summarize_overflow_large :
    ∃ s, (summarize none "1e308 + k".toList 1 2).summary = .ok s ∧
      s.totals.product.isFinite = true ∧ s.totals.sum.isNaN = false ∧
      ∃ k, s.formula.OverflowsAt 1 2 k := by
  obtain ⟨s, ok, overflow⟩ := exists_eq_ok_of_toOption
    (f := fun s => s.totals.sum.isInf) (b := true)
    (by decide +kernel : (summarize none "1e308 + k".toList 1 2).summary.toOption.map _ = _)
  obtain ⟨-, -, product, number, -, infinite⟩ := summarize_overflow ok
  exact ⟨s, ok, product, number, infinite.mp overflow⟩

/-- Not every range that is evaluated has a finite sum. -/
theorem not_forall_isFinite_sum :
    ¬∀ (limit : Option Nat) (text : List Char) (lower upper : Int) (s : Summary),
      (summarize limit text lower upper).summary = .ok s →
        s.totals.sum.isFinite = true ∧ s.totals.product.isFinite = true := by
  intro finite
  obtain ⟨s, ok, overflow⟩ := exists_eq_ok_of_toOption
    (f := fun s => s.totals.sum.isFinite) (b := false)
    (by decide +kernel : (summarize none "1e308 + k".toList 1 2).summary.toOption.map _ = _)
  rw [(finite _ _ _ _ s ok).1] at overflow
  cases overflow

/-! ### Closed forms -/

structure Within (a b : Float) : Prop where
  left : a.isFinite = true
  right : b.isFinite = true
  difference : (a - b).isFinite = true
  bounded : (a - b).abs ≤ tolerance * max (max a.abs b.abs) 1

section Agreement

variable {a b : Float}

/-- An infinite sum agrees with every closed form. -/
theorem agrees_of_isInf (infinite : a.isInf = true) (finite : b.isFinite = true) :
    agrees a b = true := by
  have largest : max (max a.abs b.abs) 1 = Number.infinity := by
    rw [Number.abs_of_isInf infinite, Number.max_infinity (Number.isFinite_abs finite),
      Number.max_infinity (by decide +kernel)]
  unfold agrees
  rw [Number.sub_of_isInf infinite finite, largest, Number.abs_of_isInf infinite]
  decide +kernel

theorem isFinite_tolerance_mul {x : Float} (finite : x.isFinite = true) :
    (tolerance * x).isFinite = true := by
  obtain ⟨s, m, e, positive, unpacked, small⟩ :
      ∃ s m e positive, tolerance.toModel.unpack = .finite s m e positive ∧ e ≤ -54 :=
    ⟨_, _, _, _, rfl, by decide⟩
  exact Number.isFinite_mul_of_small unpacked small finite

/-- A finite sum agrees with a closed form only if their difference does not overflow. -/
theorem within_of_agrees (left : a.isFinite = true) (right : b.isFinite = true)
    (agree : agrees a b = true) : Within a b := by
  have bounded : (a - b).abs ≤ tolerance * max (max a.abs b.abs) 1 := of_decide_eq_true agree
  refine ⟨left, right, ?_, bounded⟩
  by_contra overflow
  have infinite := Number.isInf_of_not_isFinite (Number.isNaN_sub left right) overflow
  rw [Number.abs_of_isInf infinite] at bounded
  refine Number.not_infinity_le (isFinite_tolerance_mul ?_) bounded
  exact Number.isFinite_max (Number.isFinite_max (Number.isFinite_abs left)
    (Number.isFinite_abs right)) (by decide +kernel)

theorem agrees_iff (number : a.isNaN = false) (finite : b.isFinite = true) :
    agrees a b = true ↔ a.isInf = true ∨ Within a b := by
  constructor
  · intro agree
    by_cases left : a.isFinite = true
    · exact .inr (within_of_agrees left finite agree)
    · exact .inl (Number.isInf_of_not_isFinite number left)
  · rintro (infinite | within)
    · exact agrees_of_isInf infinite finite
    · exact decide_eq_true within.bounded

end Agreement

namespace Report.Ends

variable {f g : Formula} {last : Int}

theorem forall_checks (ends : report.Ends f g lower upper last) {P : Check → Prop} :
    (∀ check ∈ report.checks, P check) ↔ ∀ n, lower ≤ n → n ≤ last → P (f.check g lower n) := by
  rw [ends.checks]
  simp only [List.forall_mem_map, Int.mem_range_iff, Int.lt_add_one_iff, and_imp]

theorem isNaN_partialSum {n : Int} (ends : report.Ends f g lower upper last) (high : n ≤ last) :
    (f.sum lower (n + 1)).isNaN = false :=
  Formula.isNaN_sum fun k first after => ends.summand k first (by omega)

theorem holds_eq (ends : report.Ends f g lower upper last) :
    report.holds = (f.check g lower last).holds := by
  rw [Report.holds, ends.counterexample]
  cases (f.check g lower last).holds <;> rfl

theorem holds_iff (ends : report.Ends f g lower upper last) :
    report.holds = true ↔ ∀ check ∈ report.checks, check.holds = true := by
  rw [ends.forall_checks, ends.holds_eq]
  refine ⟨fun confirmed n first after => ?_, fun holds => holds last ends.low le_rfl⟩
  obtain rfl | before := Int.le_iff_eq_or_lt.mp after
  · exact confirmed
  · exact ends.before n first before

/-- Once the partial sum has overflowed, it remains as it is. -/
theorem partialSum_eq {m n : Int} (ends : report.Ends f g lower upper last) (low : lower ≤ m)
    (later : m ≤ n) (high : n ≤ last) (infinite : (f.sum lower (m + 1)).isInf = true) :
    f.sum lower (n + 1) = f.sum lower (m + 1) :=
  Formula.sum_of_isInf (by omega) (by omega) infinite
    fun j after before => ends.summand j (by omega) (by omega)

end Report.Ends

/-- A check holds if the partial sum is a finite number within the tolerance of the closed form, or
if it has overflowed. After that it remains as it is, so that all checks that follow hold, and a
counterexample is found among finite sums only. -/
theorem explainInduction_overflow
    (ok : explainInduction limit text closedText lower upper = .ok report) :
    (∀ check ∈ report.checks, check.closedForm.isFinite = true ∧ check.partialSum.isNaN = false ∧
      (check.holds = true ↔
        check.partialSum.isInf = true ∨ Within check.partialSum check.closedForm)) ∧
    (∀ first ∈ report.checks, ∀ later ∈ report.checks, first.index ≤ later.index →
      first.partialSum.isInf = true → later.partialSum = first.partialSum) ∧
    (report.holds = true ↔ ∀ check ∈ report.checks,
      check.partialSum.isInf = true ∨ Within check.partialSum check.closedForm) ∧
    (report.holds = false → ∀ check ∈ report.checks, check.partialSum.isFinite = true) := by
  obtain ⟨f, g, last, -, -, -, ends⟩ := exists_ends_of_ok ok
  have checks : ∀ check ∈ report.checks, check.closedForm.isFinite = true ∧
      check.partialSum.isNaN = false ∧ (check.holds = true ↔
        check.partialSum.isInf = true ∨ Within check.partialSum check.closedForm) := by
    rw [ends.forall_checks]
    intro n low high
    have closed := (ends.closed n low high).finite
    have number := ends.isNaN_partialSum high
    exact ⟨closed, number, agrees_iff number closed⟩
  have confirmed : report.holds = true ↔ ∀ check ∈ report.checks,
      check.partialSum.isInf = true ∨ Within check.partialSum check.closedForm := by
    rw [ends.holds_iff]
    exact forall₂_congr fun check member => (checks check member).2.2
  refine ⟨checks, ?_, confirmed, ?_⟩
  · simp only [ends.forall_checks]
    exact fun m low _ n _ high later infinite => ends.partialSum_eq low later high infinite
  · rw [ends.forall_checks]
    intro refuted n low high
    by_contra overflow
    have infinite := Number.isInf_of_not_isFinite (ends.isNaN_partialSum high) overflow
    have holds : (f.check g lower last).holds = true := by
      refine agrees_of_isInf ?_ (ends.closed last ends.low le_rfl).finite
      rwa [ends.partialSum_eq low high le_rfl infinite]
    rw [ends.holds_eq, holds] at refuted
    cases refuted

/-- The sum of the terms near the greatest float is not given by the last of them, but it overflows
at the second index. -/
theorem explainInduction_overflow_large :
    ∃ report, explainInduction none "1e308 + k".toList "1e308 + k".toList 1 2 = .ok report ∧
      report.checks.map (·.partialSum.isInf) = [false, true] ∧ report.holds = true ∧
      ∀ check ∈ report.checks,
        check.partialSum.isInf = true ∨ Within check.partialSum check.closedForm := by
  obtain ⟨report, ok, run⟩ := exists_eq_ok_of_toOption
    (f := fun report => (report.holds, report.checks.map (·.partialSum.isInf)))
    (b := (true, [false, true]))
    (by decide +kernel :
      (explainInduction none "1e308 + k".toList "1e308 + k".toList 1 2).toOption.map _ = _)
  obtain ⟨holds, overflow⟩ := Prod.mk.inj run
  exact ⟨report, ok, overflow, holds, (explainInduction_overflow ok).2.2.1.mp holds⟩

/-- Not every check that holds is about a finite sum. -/
theorem not_forall_isFinite_partialSum :
    ¬∀ (limit : Option Nat) (text closedText : List Char) (lower upper : Int) (report : Report),
      explainInduction limit text closedText lower upper = .ok report →
        ∀ check ∈ report.checks, check.holds = true → check.partialSum.isFinite = true := by
  intro finite
  obtain ⟨report, ok, run⟩ := exists_eq_ok_of_toOption
    (f := fun report => report.checks.any fun check =>
      check.holds && !check.partialSum.isFinite) (b := true)
    (by decide +kernel :
      (explainInduction none "1e308 + k".toList "1e308 + k".toList 1 2).toOption.map _ = _)
  obtain ⟨check, member, both⟩ := List.any_eq_true.mp run
  obtain ⟨holds, overflow⟩ := Bool.and_eq_true_iff.mp both
  rw [finite _ _ _ _ _ report ok check member holds] at overflow
  cases overflow

end DiscreteMath.Sequence
