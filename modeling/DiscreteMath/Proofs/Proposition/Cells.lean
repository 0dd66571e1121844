import DiscreteMath.Proofs.Proposition.Columns
import DiscreteMath.Proofs.Proposition.Validity

/-!
# Looking up cells

A cell is found by its label, and the first one with the label counts. The variables come first in a
row, so they are always found. The value of the whole formula comes last, and a variable with the
name `result` hides it.

## Main definitions

* `tableRow` — a row of the table of a formula.
-/

namespace DiscreteMath.Proposition

open Text

variable {text : List Char} {t : Formula}

/-! ### The table of a formula -/

def tableRow (names : List String) (columns : List Column) (t : Formula) (i : Nat) : Row :=
  ⟨valuation names i ++ columns.map (labelled names i) ++
    [(resultLabel, t.holds (truth names i))]⟩

theorem variableNames_compact (read : Formula.read text = .ok t) :
    variableNames (compact text) = variableNames text := by
  rw [variableNames, (runs_compact text).2 (not_broken_of_read read), variableNames]

/-- A formula with less than 64 variables has its table, if there can be space for it. -/
theorem exists_table (read : Formula.read text = .ok t)
    (within : (variableNames text).length < 64) :
    ∃ columns : List Column, (∀ column ∈ columns, column.label.toList.head? = some '(') ∧
      truthTable text = if 59 ≤ (variableNames text).length then .error .capacityOverflow
        else .ok ((List.range (2 ^ (variableNames text).length)).map
          (tableRow (variableNames text) columns t)) := by
  have valid := defect?_eq_none_iff.mpr (clean_of_read read).sound
  have read' := read_compact read
  obtain ⟨columns, spec, made⟩ :=
    exists_rows read' (clean_of_read read').matched (by rwa [variableNames_compact read])
  simp only [Formula.holds_move, variableNames_compact read, Nat.one_shiftLeft] at made
  refine ⟨columns, fun column member => ?_, by rw [truthTable, valid]; exact made⟩
  obtain ⟨part, -, -, label, -⟩ := exists_of_forall₂ spec member
  simp [label]

theorem length_of_truthTable {table : List Row} (read : Formula.read text = .ok t)
    (made : truthTable text = .ok table) : (variableNames text).length < 59 := by
  unfold truthTable at made
  split at made
  next => cases made
  next =>
    obtain ⟨parts, -, made⟩ := bind_eq_ok made
    obtain ⟨whole, -, made⟩ := bind_eq_ok made
    rw [variableNames_compact read] at made
    split at made
    next => cases made
    split at made
    next => cases made
    next few => exact Nat.not_le.mp fun many => few ((size_gt_iff _).mpr many)

/-! ### Cells and their labels -/

section Lookup

variable {names : List String} {columns : List Column} {i : Nat}

theorem value?_tableRow (nodup : names.Nodup) {name : String} (member : name ∈ names) :
    (tableRow names columns t i).value? name = some (truth names i name) := by
  simp only [Row.value?, tableRow, List.append_assoc, List.lookup_append,
    lookup_eq_truth nodup i member, Option.some_or]

theorem lookup_valuation_eq_none {label : String} (absent : label ∉ names) :
    (valuation names i).lookup label = none := by
  refine List.lookup_eq_none_iff.mpr fun cell member => bne_iff_ne.mpr ?_
  rintro rfl
  have named := List.mem_map_of_mem (f := Prod.fst) member
  rw [fst_valuation] at named
  exact absent named

theorem lookup_labelled_eq_none {label : String} (other : label.toList.head? ≠ some '(')
    (groups : ∀ column ∈ columns, column.label.toList.head? = some '(') :
    (columns.map (labelled names i)).lookup label = none := by
  refine List.lookup_eq_none_iff.mpr (List.forall_mem_map.mpr fun column member => ?_)
  refine bne_iff_ne.mpr ?_
  rintro rfl
  exact other (groups column member)

theorem result?_tableRow (groups : ∀ column ∈ columns, column.label.toList.head? = some '(')
    (absent : resultLabel ∉ names) :
    (tableRow names columns t i).result? = some (t.holds (truth names i)) := by
  have other : resultLabel.toList.head? ≠ some '(' := by decide
  simp only [Row.result?, Row.value?, tableRow, List.append_assoc, List.lookup_append,
    lookup_valuation_eq_none absent, lookup_labelled_eq_none other groups, Option.none_or,
    List.lookup_cons_self]

end Lookup

/-- In a row of the table of a formula every variable is found with its value, and the last cell
holds the value of the formula. The result that is found is this value, unless a variable has the
name of the result: then it is the value of this variable. -/
theorem result_of_row {table : List Row} (read : Formula.read text = .ok t)
    (made : truthTable text = .ok table) (i : Nat) (row : Row) (member : table[i]? = some row) :
    (∀ name ∈ t.names, ∃ bit, (valuation (variableNames text) i).lookup name = some bit ∧
        row.value? name = some bit) ∧
      ∃ value, t.evaluate ((valuation (variableNames text) i).lookup ·) = .ok value ∧
        row.cells.getLast? = some (resultLabel, value) ∧
        row.result? = if resultLabel ∈ t.names then
          (valuation (variableNames text) i).lookup resultLabel else some value := by
  have few := length_of_truthTable read made
  obtain ⟨columns, groups, made'⟩ := exists_table read (by omega)
  rw [if_neg (by omega)] at made'
  obtain rfl := Except.ok.inj (made.symm.trans made')
  obtain ⟨j, inside, rfl⟩ : ∃ j, (List.range _)[i]? = some j ∧ _ := by
    simpa only [List.getElem?_map, Option.map_eq_some_iff] using member
  obtain ⟨-, rfl⟩ := List.getElem?_eq_some_iff.mp inside
  rw [List.getElem_range]
  have nodup := nodup_variableNames text
  have mem := mem_variableNames read
  have bound {name : String} (named : name ∈ t.names) :=
    lookup_eq_truth nodup i ((mem name).mpr named)
  refine ⟨fun name named => ⟨_, bound named, value?_tableRow nodup ((mem name).mpr named)⟩,
    _, Formula.evaluate_eq fun name => bound, by simp [tableRow], ?_⟩
  split_ifs with named
  · -- The result is looked up like a variable, and the variables come first.
    rw [bound named]
    exact value?_tableRow nodup ((mem _).mpr named)
  · exact result?_tableRow groups fun listed => named ((mem _).mp listed)

/-- A group stands between the variables and the result. -/
theorem result_of_row_group :
    ∃ t table row, Formula.read "(p → q) ⊕ p".toList = .ok t ∧
      truthTable "(p → q) ⊕ p".toList = .ok table ∧ table[1]? = some row ∧
      row.labels = ["p", "q", "(p→q)", "result"] ∧ (∀ name ∈ t.names, ∃ bit,
        (valuation ["p", "q"] 1).lookup name = some bit ∧ row.value? name = some bit) ∧
      ∃ value, t.evaluate ((valuation ["p", "q"] 1).lookup ·) = .ok value ∧
        row.cells.getLast? = some (resultLabel, value) ∧ row.result? = some value := by
  have read : Formula.read "(p → q) ⊕ p".toList = .ok
      (.binary (.binary (.atom "p" 2) .implies (.atom "q" 6) 4) .xor (.atom "p" 11) 9) := by
    decide +kernel
  have made : truthTable "(p → q) ⊕ p".toList = .ok
      [⟨[("p", false), ("q", false), ("(p→q)", true), ("result", true)]⟩,
        ⟨[("p", true), ("q", false), ("(p→q)", false), ("result", true)]⟩,
        ⟨[("p", false), ("q", true), ("(p→q)", true), ("result", true)]⟩,
        ⟨[("p", true), ("q", true), ("(p→q)", true), ("result", false)]⟩] := by decide +kernel
  have names : variableNames "(p → q) ⊕ p".toList = ["p", "q"] := by decide +kernel
  obtain ⟨bound, value, computed, last, result⟩ := result_of_row read made 1 _ rfl
  rw [names] at bound computed result
  rw [if_neg (by decide)] at result
  exact ⟨_, _, _, read, made, rfl, rfl, bound, value, computed, last, result⟩

/-- A variable with the name `result` hides the value of its negation. -/
theorem result_of_row_hidden :
    ¬ ∀ text t table, Formula.read text = .ok t → truthTable text = .ok table →
      ∀ (i : Nat) row, table[i]? = some row →
        ∃ value, t.evaluate ((valuation (variableNames text) i).lookup ·) = .ok value ∧
          row.result? = some value := by
  intro claim
  have read : Formula.read "¬result".toList = .ok (.negation (.atom "result" 2) 1) := by
    decide +kernel
  have made : truthTable "¬result".toList = .ok [⟨[("result", false), ("result", true)]⟩,
      ⟨[("result", true), ("result", false)]⟩] := by decide +kernel
  have names : variableNames "¬result".toList = ["result"] := by decide +kernel
  obtain ⟨value, computed, found⟩ := claim _ _ _ read made 0 _ rfl
  rw [names] at computed
  cases computed
  revert found
  decide

end DiscreteMath.Proposition
