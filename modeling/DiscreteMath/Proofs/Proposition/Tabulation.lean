import DiscreteMath.Proofs.Proposition.Groups
import DiscreteMath.Proofs.Result

/-!
# What a truth table holds

The table of a formula has a row for every valuation of its variables. In each row stand the
variables, then the values of the subformulas in parentheses, in the order in which they are closed,
and at last the value of the formula.

## Main definitions

* `IsCell` — a cell holds the value of the subformula that a group is the text of.
* `Tabulates` — a table is that of a formula.
-/

namespace DiscreteMath.Proposition

open Text

/-! ### Valuations -/

section Valuations

variable {names : List String}

theorem fst_valuation (names : List String) (i : Nat) :
    (valuation names i).map Prod.fst = names := by
  simp [valuation, Function.comp_def]

theorem lookup_zipIdx (nodup : names.Nodup) (i k : Nat) {j : Nat} (h : j < names.length) :
    ((names.zipIdx k).map fun (name, j) => (name, i.testBit j)).lookup names[j] =
      some (i.testBit (k + j)) := by
  induction names generalizing j k with
  | nil => simp at h
  | cons first rest ih =>
    obtain ⟨fresh, nodup⟩ := List.nodup_cons.mp nodup
    cases j with
    | zero => simp [List.zipIdx_cons]
    | succ j =>
      have later : j < rest.length := by simpa using h
      have other : (rest[j] == first) = false := by
        refine beq_eq_false_iff_ne.mpr ?_
        rintro same
        exact fresh (same ▸ List.getElem_mem later)
      have place : k + 1 + j = k + (j + 1) := by omega
      simp only [List.zipIdx_cons, List.map_cons, List.getElem_cons_succ, List.lookup_cons, other,
        ih nodup (k + 1) later, place]

theorem lookup_valuation (nodup : names.Nodup) (i : Nat) {j : Nat} (h : j < names.length) :
    (valuation names i).lookup names[j] = some (i.testBit j) := by
  simpa [valuation] using lookup_zipIdx nodup i 0 h

def truth (names : List String) (i : Nat) (name : String) : Bool :=
  ((valuation names i).lookup name).getD false

theorem lookup_eq_truth (nodup : names.Nodup) (i : Nat) {name : String} (member : name ∈ names) :
    (valuation names i).lookup name = some (truth names i name) := by
  obtain ⟨j, h, rfl⟩ := List.getElem_of_mem member
  rw [truth, lookup_valuation nodup i h]
  rfl

/-- Every valuation is that of exactly one row. -/
theorem existsUnique_row (nodup : names.Nodup) (v : String → Bool) :
    ∃! i, i < 2 ^ names.length ∧
      ∀ name ∈ names, (valuation names i).lookup name = some (v name) := by
  refine ⟨Nat.ofBits fun j : Fin names.length => v names[j], ⟨Nat.ofBits_lt_two_pow _, ?_⟩, ?_⟩
  · intro name member
    obtain ⟨j, h, rfl⟩ := List.getElem_of_mem member
    rw [lookup_valuation nodup _ h, Nat.testBit_ofBits_lt _ _ h]
    rfl
  · rintro i ⟨small, agrees⟩
    refine Nat.eq_of_testBit_eq fun j => ?_
    by_cases h : j < names.length
    · have bit := agrees _ (List.getElem_mem h)
      rw [lookup_valuation nodup i h, Option.some.injEq] at bit
      rw [bit, Nat.testBit_ofBits_lt _ _ h]
      rfl
    · have large : 2 ^ names.length ≤ 2 ^ j := Nat.pow_le_pow_right (by omega) (by omega)
      rw [Nat.testBit_lt_two_pow (by omega), Nat.testBit_ofBits_ge _ _ (by omega)]

end Valuations

/-! ### Variables -/

theorem mem_foldr_insertName {found : List String} {name : String} :
    name ∈ found.foldr insertName [] ↔ name ∈ found := by
  induction found with
  | nil => simp
  | cons first rest ih => simp [mem_insertName, ih]

theorem pairwise_variableNames (text : List Char) : (variableNames text).Pairwise (· < ·) := by
  unfold variableNames
  induction (runs isLetter text).map String.ofList with
  | nil => exact .nil
  | cons first rest ih => exact pairwise_insertName ih

theorem nodup_variableNames (text : List Char) : (variableNames text).Nodup :=
  (pairwise_variableNames text).imp fun lt => by
    rintro rfl
    exact String.lt_irrefl _ lt

/-- The runs of letters of the text are the variables of the formula. -/
theorem mem_variableNames {text : List Char} {t : Formula} (read : Formula.read text = .ok t)
    (name : String) : name ∈ variableNames text ↔ name ∈ t.names := by
  obtain ⟨found, lexed, derives⟩ := read_eq_ok_iff.mp read
  rw [variableNames, mem_foldr_insertName, (tokens_eq_ok_iff.mp lexed).runs_eq, derives.names_eq]

/-! ### Groups -/

theorem exists_of_closes {text inner : List Char} {j : Nat} (listed : j ∈ text.idxsOf ')')
    (closes : Closes text j inner) :
    ∃ before after, text = before ++ '(' :: (inner ++ ')' :: after) := by
  obtain ⟨h, closing⟩ := List.mem_idxsOf_iff_exists_getElem_pos.mp listed
  obtain ⟨-, before, front⟩ := closes
  have whole := (List.take_append_drop j text).symm
  rw [front, List.drop_eq_getElem_cons h, beq_iff_eq.mp closing] at whole
  exact ⟨before, text.drop (j + 1), whole.trans (by simp)⟩

/-- Each of the groups stands in the text, and its parentheses match. -/
theorem exists_of_mem_groups {text inner : List Char} (matched : Matched text)
    (member : inner ∈ groups [] text) :
    Matched inner ∧ ∃ before after, text = before ++ '(' :: (inner ++ ')' :: after) := by
  obtain ⟨j, listed, closes⟩ := exists_of_forall₂ (closes_groups matched) member
  exact ⟨closes.1, exists_of_closes listed closes⟩

/-- No group is the whole text. -/
theorem subexpressions_eq {text : List Char} (matched : Matched text) :
    subexpressions text = ((groups [] text).map String.ofList).eraseDups := by
  have shorter : ∀ part ∈ (groups [] text).map String.ofList,
      (part != String.ofList text) = true := by
    intro part member
    obtain ⟨inner, inside, rfl⟩ := List.mem_map.mp member
    obtain ⟨-, before, after, split⟩ := exists_of_mem_groups matched inside
    have length := congrArg List.length split
    simp only [List.length_append, List.length_cons] at length
    refine bne_iff_ne.mpr fun same => ?_
    have length' := congrArg List.length (String.ofList_injective same)
    omega
  rw [subexpressions, List.filter_eq_self.mpr shorter]

/-! ### Rows -/

/-- The cell is labelled with the group in its parentheses, and it holds the value of the subformula
that is read from the group wherever it stands. -/
structure IsCell (text : List Char) (t : Formula) (valuation : List (String × Bool))
    (part : String) (cell : String × Bool) : Prop where
  label : cell.1 = "(" ++ part ++ ")"
  value : ∀ before after, compact text = before ++ '(' :: (part.toList ++ ')' :: after) →
    ∃ u s : Formula, Formula.read part.toList = .ok u ∧ s.Part t ∧
      s.move (compactPlace text) = u.move (· + (before.length + 1)) ∧
      s.evaluate (valuation.lookup ·) = .ok cell.2

/-- The table is that of a formula with these variables and with these groups in its text. -/
structure Tabulates (text : List Char) (t : Formula) (names : List String)
    (parts : List (List Char)) (table : List Row) : Prop where
  sorted : names.Pairwise (· < ·)
  mem_names : ∀ name, name ∈ names ↔ name ∈ t.names
  groups : List.Forall₂ (Closes (compact text)) ((compact text).idxsOf ')') parts
  length : table.length = 2 ^ names.length
  bits : ∀ i j (h : j < names.length), (valuation names i)[j]? = some (names[j], i.testBit j)
  once : ∀ v : String → Bool, ∃! i, i < 2 ^ names.length ∧
    ∀ name ∈ names, (valuation names i).lookup name = some (v name)
  row : ∀ i < 2 ^ names.length, ∃ cells value,
    table[i]? = some ⟨valuation names i ++ cells ++ [(resultLabel, value)]⟩ ∧
    List.Forall₂ (IsCell text t (valuation names i)) (parts.map String.ofList).eraseDups cells ∧
    t.evaluate ((valuation names i).lookup ·) = .ok value

theorem cell_eq {names : List String} (nodup : names.Nodup) (i : Nat) {column : Column}
    (bound : ∀ name ∈ column.formula.names, name ∈ names) :
    column.cell (valuation names i) = .ok (column.label, column.formula.holds (truth names i)) := by
  have value : column.formula.evaluate ((valuation names i).lookup ·) =
      .ok (column.formula.holds (truth names i)) :=
    Formula.evaluate_eq fun name member => lookup_eq_truth nodup i (bound name member)
  rw [Column.cell, value]

theorem row_eq {names : List String} (nodup : names.Nodup) (i : Nat) {columns : List Column}
    (bound : ∀ column ∈ columns, ∀ name ∈ column.formula.names, name ∈ names) :
    row names columns i = .ok ⟨valuation names i ++
      columns.map fun column => (column.label, column.formula.holds (truth names i))⟩ := by
  rw [row, mapM_eq_map fun column member => cell_eq nodup i (bound column member)]
  rfl

/-- The columns of the groups of a formula without blanks. -/
theorem exists_columns {text : List Char} {t : Formula} (read : Formula.read text = .ok t)
    (matched : Matched text) :
    ∃ columns, (subexpressions text).mapM (fun part => Column.read ("(" ++ part ++ ")") part) =
        .ok columns ∧
      List.Forall₂ (fun part column => part.toList ∈ groups [] text ∧
        column.label = "(" ++ part ++ ")" ∧ Formula.read part.toList = .ok column.formula)
        (subexpressions text) columns := by
  refine exists_mapM fun part member => ?_
  rw [subexpressions_eq matched, List.mem_eraseDups] at member
  obtain ⟨inner, inside, rfl⟩ := List.mem_map.mp member
  obtain ⟨matched', before, after, split⟩ := exists_of_mem_groups matched inside
  obtain ⟨u, found, -⟩ := read_group read split matched'
  refine ⟨⟨"(" ++ String.ofList inner ++ ")", String.ofList inner, u⟩, ?_, ?_, rfl, ?_⟩
  · rw [Column.read, String.toList_ofList, found]
  · rwa [String.toList_ofList]
  · rw [String.toList_ofList, found]

def labelled (names : List String) (i : Nat) (column : Column) : String × Bool :=
  (column.label, column.formula.holds (truth names i))

/-- There can be no space for the rows of 59 variables or more. -/
theorem size_gt_iff (n : Nat) : rowSize * (1 <<< n) > sizeLimit ↔ 59 ≤ n := by
  have few : n < 59 → 2 ^ n ≤ 2 ^ 58 := fun h => Nat.pow_le_pow_right (by omega) (by omega)
  have many : 59 ≤ n → 2 ^ 59 ≤ 2 ^ n := fun h => Nat.pow_le_pow_right (by omega) h
  rw [Nat.one_shiftLeft, rowSize, sizeLimit]
  omega

/-- The rows of a formula without blanks. -/
theorem exists_rows {text : List Char} {t : Formula} (read : Formula.read text = .ok t)
    (matched : Matched text) (within : (variableNames text).length < 64) :
    ∃ columns,
      List.Forall₂ (fun part column => part.toList ∈ groups [] text ∧
        column.label = "(" ++ part ++ ")" ∧ Formula.read part.toList = .ok column.formula)
        (subexpressions text) columns ∧
      rows text = if 59 ≤ (variableNames text).length then .error .capacityOverflow
        else .ok ((List.range (1 <<< (variableNames text).length)).map fun i =>
          ⟨valuation (variableNames text) i ++ columns.map (labelled (variableNames text) i) ++
            [(resultLabel, t.holds (truth (variableNames text) i))]⟩) := by
  obtain ⟨columns, readAll, spec⟩ := exists_columns read matched
  refine ⟨columns, spec, ?_⟩
  let whole : Column := ⟨resultLabel, String.ofList text, t⟩
  have readLast : Column.read resultLabel (String.ofList text) = .ok whole := by
    rw [Column.read, String.toList_ofList, read]
  have bound : ∀ column ∈ columns ++ [whole], ∀ name ∈ column.formula.names,
      name ∈ variableNames text := by
    intro column member name named
    rw [mem_variableNames read]
    rcases List.mem_append.mp member with inside | last
    · obtain ⟨part, -, listed, -, found⟩ := exists_of_forall₂ spec inside
      obtain ⟨matched', before, after, split⟩ := exists_of_mem_groups matched listed
      obtain ⟨u, found', part⟩ := read_group read split matched'
      obtain rfl : u = column.formula := Except.ok.inj (found'.symm.trans found)
      exact part.names_subset (by simpa using named)
    · obtain rfl := List.mem_singleton.mp last
      exact named
  have nodup := nodup_variableNames text
  have each (i : Nat) : row (variableNames text) (columns ++ [whole]) i =
      .ok ⟨valuation (variableNames text) i ++ columns.map (labelled (variableNames text) i) ++
        [(resultLabel, t.holds (truth (variableNames text) i))]⟩ := by
    rw [row_eq nodup i bound, List.map_append, List.append_assoc]
    rfl
  have few : ¬ (variableNames text).length > variableLimit := by
    rw [variableLimit]
    omega
  simp only [rows, readAll, readLast, if_neg few, size_gt_iff, bind, Except.bind]
  rw [mapM_eq_map fun i _ => each i]

/-- The cell of a column that is read from a group. -/
theorem isCell_labelled {text : List Char} {t : Formula} {names : List String}
    (read : Formula.read text = .ok t) (nodup : names.Nodup)
    (mem : ∀ name, name ∈ names ↔ name ∈ t.names) (i : Nat) {part : String} {column : Column}
    (matched : Matched part.toList) (label : column.label = "(" ++ part ++ ")")
    (found : Formula.read part.toList = .ok column.formula) :
    IsCell text t (valuation names i) part (labelled names i column) := by
  refine ⟨label, fun before after split => ?_⟩
  obtain ⟨u, found', inside⟩ := read_group (read_compact read) split matched
  obtain rfl : u = column.formula := Except.ok.inj (found'.symm.trans found)
  obtain ⟨s, inside, same⟩ := inside.exists_of_move
  have value : s.evaluate ((valuation names i).lookup ·) = .ok (s.holds (truth names i)) :=
    Formula.evaluate_eq fun name member =>
      lookup_eq_truth nodup i ((mem name).mpr (inside.names_subset member))
  refine ⟨_, s, found, inside, same, value.trans ?_⟩
  rw [← Formula.holds_move (compactPlace text), same, Formula.holds_move]
  rfl

theorem length_variableNames {text : List Char} {t : Formula} (read : Formula.read text = .ok t) :
    (variableNames text).length = t.names.dedup.length := by
  refine ((List.perm_ext_iff_of_nodup (nodup_variableNames text)
    (List.nodup_dedup _)).mpr fun name => ?_).length_eq
  rw [mem_variableNames read, List.mem_dedup]

/-- What is left of the text without blanks has the same parentheses and variables. -/
theorem compact_of_read {text : List Char} {t : Formula} (read : Formula.read text = .ok t) :
    Matched (compact text) ∧ (∀ name, name ∈ variableNames (compact text) ↔ name ∈ t.names) ∧
      (variableNames (compact text)).length = t.names.dedup.length := by
  have read' := read_compact read
  obtain ⟨found, lexed, derives⟩ := read_eq_ok_iff.mp read'
  refine ⟨(tokens_eq_ok_iff.mp lexed).balanced_iff.mp derives.balanced, fun name => ?_, ?_⟩
  · rw [mem_variableNames read', Formula.names_move]
  · rw [length_variableNames read', Formula.names_move]

/-- From 59 variables on there can be no space for the rows. -/
theorem truthTable_overflow {text : List Char} {t : Formula} (valid : defect? text = none)
    (read : Formula.read text = .ok t) (many : 59 ≤ t.names.dedup.length)
    (within : t.names.dedup.length < 64) : truthTable text = .error .capacityOverflow := by
  obtain ⟨matched, -, count⟩ := compact_of_read read
  obtain ⟨columns, -, table⟩ := exists_rows (read_compact read) matched (by rwa [count])
  rw [count, if_pos many] at table
  rw [truthTable, valid]
  exact table

/-- A formula without defects and with less than 59 variables has its truth table. With more
variables, but less than 64, there can be no space for the rows. -/
theorem exists_truthTable {text : List Char} {t : Formula} (valid : defect? text = none)
    (read : Formula.read text = .ok t) (within : t.names.dedup.length < 64) :
    (t.names.dedup.length < 59 → ∃ names parts table, truthTable text = .ok table ∧
        Tabulates text t names parts table) ∧
      (59 ≤ t.names.dedup.length → truthTable text = .error .capacityOverflow) := by
  refine ⟨fun few => ?_, fun many => truthTable_overflow valid read many within⟩
  obtain ⟨matched, mem, count⟩ := compact_of_read read
  have nodup := nodup_variableNames (compact text)
  obtain ⟨columns, spec, table⟩ := exists_rows (read_compact read) matched (by rwa [count])
  simp only [Formula.holds_move] at table
  rw [if_neg (by omega)] at table
  refine ⟨_, groups [] (compact text), _, by rw [truthTable, valid]; exact table, {
    sorted := pairwise_variableNames _
    mem_names := mem
    groups := closes_groups matched
    length := by rw [List.length_map, List.length_range, Nat.one_shiftLeft]
    bits := fun i j h => by simp [valuation, h]
    once := existsUnique_row nodup
    row := fun i h => ?_ }⟩
  refine ⟨columns.map (labelled (variableNames (compact text)) i),
    t.holds (truth (variableNames (compact text)) i), ?_, ?_, ?_⟩
  · rw [List.getElem?_map, List.getElem?_range (by rwa [Nat.one_shiftLeft])]
    rfl
  · rw [← subexpressions_eq matched, List.forall₂_map_right_iff]
    refine spec.imp fun part column ⟨listed, label, found⟩ => ?_
    exact isCell_labelled read nodup mem i (exists_of_mem_groups matched listed).1 label found
  · exact Formula.evaluate_eq fun name member => lookup_eq_truth nodup i ((mem name).mpr member)

theorem exists_truthTable_group :
    ∃ names parts table, truthTable "¬(p ∨ q) && p".toList = .ok table ∧
      Tabulates "¬(p ∨ q) && p".toList (.binary
        (.negation (.binary (.atom "p" 3) .or (.atom "q" 7) 5) 1) .and (.atom "p" 13) 10)
        names parts table :=
  (exists_truthTable (by decide +kernel) (by decide +kernel) (by decide)).1 (by decide)

/-- The letters, then the first seven of them doubled, with a sign between them. -/
def joinedLetters (sign : List Char) : List Char :=
  let letters := "abcdefghijklmnopqrstuvwxyzABCDEFGHIJKLMNOPQRSTUVWXYZ".toList
  sign.intercalate (letters.map ([·]) ++ (letters.take 7).map fun c => [c, c])

/-- The conjunction `a∧b∧c∧…∧gg` of 59 variables. -/
theorem exists_read_joinedLetters : ∃ t, Formula.read (joinedLetters ['∧']) = .ok t ∧
    t.names.dedup.length = 59 := by
  have readable : (Formula.read (joinedLetters ['∧'])).isOk = true := by decide +kernel
  have count : (variableNames (joinedLetters ['∧'])).length = 59 := by decide +kernel
  cases read : Formula.read (joinedLetters ['∧']) with
  | error e => simp [read, Except.isOk, Except.toBool] at readable
  | ok t => exact ⟨t, rfl, (length_variableNames read).symm.trans count⟩

/-- With 59 variables there is no table. -/
theorem exists_truthTable_overflow :
    ¬ ∀ text t, defect? text = none → Formula.read text = .ok t → t.names.dedup.length < 64 →
      ∃ names parts table, truthTable text = .ok table ∧ Tabulates text t names parts table := by
  intro claim
  have valid : defect? (joinedLetters ['∧']) = none := by decide +kernel
  obtain ⟨t, read, count⟩ := exists_read_joinedLetters
  obtain ⟨_, _, table, made, -⟩ := claim _ t valid read (by omega)
  cases made.symm.trans (truthTable_overflow valid read (by omega) (by omega))

end DiscreteMath.Proposition
