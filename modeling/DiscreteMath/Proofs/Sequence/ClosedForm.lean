import DiscreteMath.Proofs.Sequence.Range
import DiscreteMath.Sequence.Induction

/-!
# Closed forms and partial sums

The partial sums that a closed form is compared with are those of the ranges up to each index. The
comparison ends at the first index where the closed form differs.

## Main definitions

* `Agrees` — the closed form agrees with the partial sum up to an index.
* `Checked` — how the checks over a range end.
* `Report.Ends` — the checks of a report up to a last index.
* `Report.Follows` — a report compares the closed form with the sums of ranges.
-/

namespace DiscreteMath.Sequence

/-! ### Checks -/

def Formula.check (f g : Formula) (lower n : Int) : Check :=
  ⟨n, f.sum lower (n + 1), g.value n, agrees (f.sum lower (n + 1)) (g.value n)⟩

@[simp] theorem map_index_check (f g : Formula) (lower : Int) (ns : List Int) :
    (ns.map (f.check g lower)).map Check.index = ns := by
  rw [List.map_map]
  exact List.map_id ns

structure Agrees (f g : Formula) (lower n : Int) : Prop where
  summand : f.Defined n
  closed : g.Defined n
  holds : (f.check g lower n).holds = true

/-- The checks from `lower` to `upper` end at the first index where the closed form differs or a
term is missing. Else they end at the last one. -/
inductive Checked (f g : Formula) (lower upper : Int) :
    Except SequenceError (List Check × Option Int) → Prop
  | ends {n : Int} : lower ≤ n → n ≤ upper → (∀ j, lower ≤ j → j < n → Agrees f g lower j) →
      f.Defined n → g.Defined n → ((f.check g lower n).holds = true → n = upper) →
      Checked f g lower upper (.ok ((Int.range lower (n + 1)).map (f.check g lower),
        if (f.check g lower n).holds then none else some n))
  | fails {n : Int} {e : SequenceError} : lower ≤ n → n ≤ upper →
      (∀ j, lower ≤ j → j < n → Agrees f g lower j) →
      (f.Fails n e ∨ f.Defined n ∧ g.Fails n e) → Checked f g lower upper (.error e)

section Checking

variable {f g : Formula} {lower upper n : Int} {count : Nat} {done : List Check}

theorem checksFrom_zero (sum : Float) :
    checksFrom f g 0 n sum done = .ok (done.reverse, none) := rfl

theorem checksFrom_succ (sum : Float) : checksFrom f g (count + 1) n sum done =
    (f.term n).bind fun value => (g.term n).bind fun expected =>
      let check : Check := ⟨n, sum + value, expected, agrees (sum + value) expected⟩
      if check.holds then checksFrom f g count (n + 1) check.partialSum (check :: done)
      else .ok ((check :: done).reverse, some n) := rfl

theorem checksFrom_of_defined (low : lower ≤ n) (summand : f.Defined n) (closed : g.Defined n) :
    checksFrom f g (count + 1) n (f.sum lower n) done =
      if (f.check g lower n).holds then
        checksFrom f g count (n + 1) (f.sum lower (n + 1)) (f.check g lower n :: done)
      else .ok ((f.check g lower n :: done).reverse, some n) := by
  rw [checksFrom_succ, summand.term, closed.term, Formula.check, f.sum_succ low]
  rfl

/-- The loop has the partial sum before the index that it is at, and the checks at the indices that
it has passed. -/
theorem checksFrom_add {passed : Nat} (low : lower ≤ n)
    (agree : ∀ j, n ≤ j → j < n + passed → Agrees f g lower j) (count : Nat)
    (done : List Check) :
    checksFrom f g (passed + count) n (f.sum lower n) done =
      checksFrom f g count (n + passed) (f.sum lower (n + passed))
        (((Int.range n (n + passed)).map (f.check g lower)).reverse ++ done) := by
  induction passed generalizing n done with
  | zero => simp
  | succ passed ih =>
    have first := agree n le_rfl (by omega)
    have others : ∀ j, n + 1 ≤ j → j < n + 1 + passed → Agrees f g lower j :=
      fun j low high => agree j (by omega) (by omega)
    have next : n + 1 + passed = n + (passed + 1 : Nat) := by omega
    rw [Nat.succ_add, checksFrom_of_defined low first.summand first.closed, if_pos first.holds,
      ih (by omega) others, range_add_succ, next]
    simp

theorem checksFrom_checked (nonempty : lower ≤ upper) :
    Checked f g lower upper (checksFrom f g (rangeSize lower upper) lower 0 []) := by
  have size := rangeSize_eq nonempty
  rw [← f.sum_self lower]
  rcases forall_or_least (Agrees f g lower) lower upper with
    agree | ⟨n, low, high, before, disagree⟩
  · have passes : ∀ j, lower ≤ j → j < lower + rangeSize lower upper → Agrees f g lower j :=
      fun j low high => agree j low (by omega)
    have run := checksFrom_add le_rfl passes 0 []
    have last := agree upper nonempty le_rfl
    have ends := Checked.ends nonempty le_rfl (fun j low high => agree j low high.le)
      last.summand last.closed fun _ => rfl
    rw [if_pos last.holds] at ends
    rw [Nat.add_zero, size, checksFrom_zero, List.append_nil, List.reverse_reverse] at run
    rw [run]
    exact ends
  · obtain ⟨passed, rfl⟩ := Int.le.dest low
    obtain ⟨left, counted⟩ := Nat.exists_eq_add_of_lt (by omega : passed < rangeSize lower upper)
    rw [counted, Nat.add_assoc, checksFrom_add le_rfl before, List.append_nil]
    obtain summand | ⟨e, fails⟩ := f.defined_or_fails (lower + passed)
    · obtain closed | ⟨e, fails⟩ := g.defined_or_fails (lower + passed)
      · have differs : (f.check g lower (lower + passed)).holds = false :=
          Bool.eq_false_iff.mpr fun holds => disagree ⟨summand, closed, holds⟩
        have ends := Checked.ends low high before summand closed fun holds => by
          rw [differs] at holds
          cases holds
        rw [checksFrom_of_defined low summand closed]
        simpa [differs, range_succ low] using ends
      · rw [checksFrom_succ, summand.term, fails.term]
        exact .fails low high before (.inr ⟨summand, fails⟩)
    · rw [checksFrom_succ, fails.term]
      exact .fails low high before (.inl fails)

end Checking

/-! ### Reports -/

variable {limit : Option Nat} {text closedText : List Char} {lower upper n : Int} {f g : Formula}
  {report : Report}

structure Check.Compares (check : Check) (limit : Option Nat) (text closedText : List Char)
    (lower : Int) : Prop where
  sum : ∃ s, (summarize limit text lower check.index).summary = .ok s ∧
    check.partialSum = s.totals.sum
  closed : ∃ g, compile closedText = .ok g ∧ g.term check.index = .ok check.closedForm
  holds : check.holds = agrees check.partialSum check.closedForm

/-- The report compares the closed form at consecutive indices, up to the first where it differs. -/
structure Report.Follows (report : Report) (limit : Option Nat) (text closedText : List Char)
    (lower upper : Int) : Prop where
  indices : ∃ last, lower ≤ last ∧ last ≤ upper ∧
    report.checks.map Check.index = Int.range lower (last + 1)
  compares : ∀ check ∈ report.checks, check.Compares limit text closedText lower
  before : ∀ check ∈ report.checks.dropLast, check.holds = true
  counterexample : ∀ n, report.counterexample = some n ↔
    ∃ check, report.checks.getLast? = some check ∧ check.holds = false ∧ check.index = n
  confirmed : report.counterexample = none ↔
    report.checks.map Check.index = Int.range lower (upper + 1) ∧
      ∀ check ∈ report.checks, check.holds = true

theorem explainInduction_eq_ok
    (ok : explainInduction limit text closedText lower upper = .ok report) :
    ∃ f g, compile text = .ok f ∧ compile closedText = .ok g ∧ Admitted limit lower upper ∧
      checksFrom f g (rangeSize lower upper) lower 0 [] =
        .ok (report.checks, report.counterexample) := by
  obtain ⟨f, compiled, ok⟩ := bind_eq_ok ok
  obtain ⟨g, closed, ok⟩ := bind_eq_ok ok
  obtain ⟨_, admitted, ok⟩ := bind_eq_ok ok
  obtain ⟨first, -, ok⟩ := bind_eq_ok ok
  obtain ⟨closedFirst, -, ok⟩ := bind_eq_ok ok
  obtain ⟨⟨checks, counterexample⟩, checked, ok⟩ := bind_eq_ok ok
  cases ok
  exact ⟨f, g, compiled, closed, checkRange_eq_ok.mp admitted, checked⟩

theorem exists_explainInduction_eq_ok (summand : Evaluates limit f lower upper)
    (closed : Evaluates limit g lower upper) (compiled : compile text = .ok f)
    (closedCompiled : compile closedText = .ok g) :
    ∃ report, explainInduction limit text closedText lower upper = .ok report := by
  have nonempty := summand.nonempty
  have checks : ∃ result, checksFrom f g (rangeSize lower upper) lower 0 [] = .ok result := by
    have checked : Checked f g lower upper _ := checksFrom_checked nonempty
    generalize checksFrom f g (rangeSize lower upper) lower 0 [] = ends at checked
    cases checked with
    | ends => exact ⟨_, rfl⟩
    | @fails n e low high before fails =>
      rcases fails with fails | ⟨-, fails⟩
      · exact absurd (summand.defined n low high) fails.not_defined
      · exact absurd (closed.defined n low high) fails.not_defined
  obtain ⟨result, checks⟩ := checks
  have first := (summand.defined lower le_rfl nonempty).term
  have closedFirst := (closed.defined lower le_rfl nonempty).term
  rw [explainInduction, compiled, closedCompiled, checkRange_eq_ok.mpr summand.toAdmitted]
  dsimp only [bind, Except.bind]
  rw [first, closedFirst, checks]
  exact ⟨_, rfl⟩

theorem compares_check (admitted : Admitted limit lower upper) (compiled : compile text = .ok f)
    (closedCompiled : compile closedText = .ok g) (low : lower ≤ n) (high : n ≤ upper)
    (summand : ∀ j, lower ≤ j → j ≤ n → f.Defined j) (closed : g.Defined n) :
    (f.check g lower n).Compares limit text closedText lower := by
  have evaluates : Evaluates limit f lower n := ⟨admitted.mono low high, summand⟩
  exact ⟨⟨_, evaluates.summarize compiled, evaluates.covers.sum.symm⟩,
    ⟨g, closedCompiled, closed.term⟩, rfl⟩

/-- The checks are those at the indices from `lower` to `last`, where both formulas have terms. The
closed form agrees before the last one. -/
structure Report.Ends (report : Report) (f g : Formula) (lower upper last : Int) : Prop where
  low : lower ≤ last
  high : last ≤ upper
  summand : ∀ j, lower ≤ j → j ≤ last → f.Defined j
  closed : ∀ j, lower ≤ j → j ≤ last → g.Defined j
  before : ∀ j, lower ≤ j → j < last → (f.check g lower j).holds = true
  complete : (f.check g lower last).holds = true → last = upper
  checks : report.checks = (Int.range lower (last + 1)).map (f.check g lower)
  counterexample : report.counterexample =
    if (f.check g lower last).holds then none else some last

theorem exists_ends_of_ok (ok : explainInduction limit text closedText lower upper = .ok report) :
    ∃ f g last, compile text = .ok f ∧ compile closedText = .ok g ∧ Admitted limit lower upper ∧
      report.Ends f g lower upper last := by
  obtain ⟨f, g, compiled, closedCompiled, admitted, run⟩ := explainInduction_eq_ok ok
  have checked : Checked f g lower upper _ := checksFrom_checked admitted.nonempty
  rw [run] at checked
  generalize checks : report.checks = listed at checked
  generalize counterexample : report.counterexample = found at checked
  cases checked with | @ends last low high before summand closed complete => ?_
  have defined : ∀ j, lower ≤ j → j ≤ last → f.Defined j ∧ g.Defined j := by
    intro j first after
    obtain rfl | after := Int.le_iff_eq_or_lt.mp after
    · exact ⟨summand, closed⟩
    · exact ⟨(before j first after).summand, (before j first after).closed⟩
  exact ⟨f, g, last, compiled, closedCompiled, admitted, low, high,
    fun j first after => (defined j first after).1, fun j first after => (defined j first after).2,
    fun j first after => (before j first after).holds, complete, checks, counterexample⟩

theorem follows_of_ok (ok : explainInduction limit text closedText lower upper = .ok report) :
    report.Follows limit text closedText lower upper := by
  obtain ⟨f, g, last, compiled, closedCompiled, admitted, low, high, summand, closed, before,
    complete, checks, counterexample⟩ := exists_ends_of_ok ok
  have indices : report.checks.map Check.index = Int.range lower (last + 1) := by
    rw [checks, map_index_check]
  have split : report.checks =
      (Int.range lower last).map (f.check g lower) ++ [f.check g lower last] := by
    rw [checks, range_succ low, List.map_append, List.map_singleton]
  have holds : ∀ check ∈ (Int.range lower last).map (f.check g lower), check.holds = true := by
    simp only [List.forall_mem_map, Int.mem_range_iff]
    exact fun n ⟨first, after⟩ => before n first after
  refine ⟨⟨last, low, high, indices⟩, ?_, ?_, ?_, ?_⟩
  · rw [checks]
    simp only [List.forall_mem_map, Int.mem_range_iff]
    intro n ⟨first, after⟩
    exact compares_check admitted compiled closedCompiled first (by omega)
      (fun j first _ => summand j first (by omega)) (closed n first (by omega))
  · rw [split, List.dropLast_concat]
    exact holds
  · intro n
    rw [counterexample, split, List.getLast?_concat]
    grind [Formula.check]
  · rw [counterexample, indices]
    constructor
    · intro none
      have last : (f.check g lower last).holds = true := by grind
      rw [complete last, split]
      exact ⟨rfl, List.forall_mem_append.mpr ⟨holds, List.forall_mem_singleton.mpr last⟩⟩
    · rintro ⟨-, all⟩
      rw [split] at all
      exact if_pos (all _ List.mem_concat_self)

/-- A report compares the closed form with the sums of the ranges up to consecutive indices. Its
counterexample is the first index where they differ. There is a report if both formulas can be
evaluated over the range. -/
theorem explainInduction_spec (limit : Option Nat) (text closedText : List Char)
    (lower upper : Int) :
    (∀ report, explainInduction limit text closedText lower upper = .ok report →
      report.Follows limit text closedText lower upper) ∧
    ((∃ s, (summarize limit text lower upper).summary = .ok s) →
      (∃ s, (summarize limit closedText lower upper).summary = .ok s) →
      ∃ report, explainInduction limit text closedText lower upper = .ok report) := by
  refine ⟨fun report => follows_of_ok, ?_⟩
  rintro ⟨s, summand⟩ ⟨s', closed⟩
  obtain ⟨compiled, summand, -⟩ := summarize_eq_ok summand
  obtain ⟨closedCompiled, closed, -⟩ := summarize_eq_ok closed
  exact exists_explainInduction_eq_ok summand closed compiled closedCompiled

/-- The squares are not the sums of the integers, which shows at two. -/
theorem explainInduction_squares :
    ∃ report, explainInduction (some 4) "k".toList "k*k".toList 0 3 = .ok report ∧
      report.Follows (some 4) "k".toList "k*k".toList 0 3 ∧ report.counterexample = some 2 := by
  have integers : compile "k".toList = .ok (.index 1) := by cbv
  have squares : compile "k*k".toList = .ok (.binary (.index 1) .mul (.index 3) 2) := by cbv
  have admitted : Admitted (some 4) 0 3 := ⟨by omega, fun most limited => by cases limited; omega⟩
  have defined : ∀ k : Int, 0 ≤ k → k ≤ 3 → (Formula.index 1).Defined k ∧
      (Formula.binary (.index 1) .mul (.index 3) 2).Defined k := by
    intro k low high
    obtain rfl | rfl | rfl | rfl : k = 0 ∨ k = 1 ∨ k = 2 ∨ k = 3 := by omega
    all_goals exact ⟨⟨by decide, by decide +kernel⟩, by decide, by decide +kernel⟩
  obtain ⟨follows, succeeds⟩ := explainInduction_spec (some 4) "k".toList "k*k".toList 0 3
  have summand : Evaluates (some 4) (.index 1) 0 3 := ⟨admitted, fun k l h => (defined k l h).1⟩
  have closed : Evaluates (some 4) (.binary (.index 1) .mul (.index 3) 2) 0 3 :=
    ⟨admitted, fun k l h => (defined k l h).2⟩
  obtain ⟨report, ok⟩ := succeeds ⟨_, summand.summarize integers⟩ ⟨_, closed.summarize squares⟩
  refine ⟨report, ok, follows report ok, ?_⟩
  obtain ⟨f, g, compiled, closedCompiled, -, run⟩ := explainInduction_eq_ok ok
  obtain rfl := Except.ok.inj (integers.symm.trans compiled)
  obtain rfl := Except.ok.inj (squares.symm.trans closedCompiled)
  have found : ((checksFrom (.index 1) (.binary (.index 1) .mul (.index 3) 2) 4 0 0 []).map
      Prod.snd).toOption = some (some 2) := by decide +kernel
  change (checksFrom _ _ 4 0 0 []) = _ at run
  rw [run] at found
  exact Option.some.inj found

end DiscreteMath.Sequence
