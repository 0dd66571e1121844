import DiscreteMath.CommandLine.Program
import DiscreteMath.Proofs.Proposition.Tabulation

/-!
# The columns of a truth table

The variables of a table are the runs of letters that are left when the blanks have been left out.
They are the runs of letters of the text itself unless blanks stand between two letters: `p p` has
the variable `p` twice as a text, and its table is that of `pp`.

## Main definitions

* `Broken` — blanks of the text stand between two letters.
-/

namespace DiscreteMath

open Text

namespace Proposition

/-- Blanks of the text stand between two letters. -/
def Broken (text : List Char) : Prop :=
  ∃ before a gap b after, text = before ++ a :: (gap ++ b :: after) ∧ isLetter a = true ∧
    isLetter b = true ∧ gap ≠ [] ∧ ∀ c ∈ gap, isBlank c = true

/-! ### Runs of letters -/

/-- The first character that is not a blank. -/
theorem head?_compact_eq_some {text : List Char} {b : Char} :
    (compact text).head? = some b ↔ isBlank b = false ∧
      ∃ gap after, text = gap ++ b :: after ∧ ∀ c ∈ gap, isBlank c = true := by
  simp [compact, List.head?_filter, List.find?_eq_some_iff_append]

variable {word rest : List Char}

theorem Broken.append (broken : Broken rest) (word : List Char) : Broken (word ++ rest) := by
  obtain ⟨before, a, gap, b, after, rfl, spec⟩ := broken
  exact ⟨word ++ before, a, gap, b, after, by simp, spec⟩

theorem not_broken_nil : ¬ Broken [] := by
  rintro ⟨before, a, gap, b, after, split, -⟩
  simp at split

theorem broken_cons_iff {c : Char} (other : isLetter c = false) :
    Broken (c :: rest) ↔ Broken rest := by
  refine ⟨?_, fun broken => broken.append [c]⟩
  rintro ⟨before, a, gap, b, after, split, letter, spec⟩
  cases before with
  | nil =>
    obtain ⟨rfl, -⟩ := List.cons.inj split
    rw [other] at letter
    cases letter
  | cons d before => exact ⟨before, a, gap, b, after, (List.cons.inj split).2, letter, spec⟩

/-- Blanks break a run of letters off where the next character that is not a blank is a letter. -/
theorem broken_append_iff (nonempty : word ≠ []) (run : ∀ c ∈ word, isLetter c = true)
    (apart : ∀ c ∈ rest.head?, isLetter c = false) :
    Broken (word ++ rest) ↔ (∃ b ∈ (compact rest).head?, isLetter b = true) ∨ Broken rest := by
  constructor
  · rintro ⟨before, a, gap, b, after, split, letter, letter', full, blank⟩
    have visible : isBlank b = false := isBlank_eq_false_of_isLetter letter'
    rcases List.append_eq_append_iff.mp split with ⟨inner, rfl, later⟩ | ⟨inner, rfl, later⟩
    · exact .inr ⟨inner, a, gap, b, after, later, letter, letter', full, blank⟩
    cases inner with
    | nil => exact .inr ⟨[], a, gap, b, after, later.symm, letter, letter', full, blank⟩
    | cons d inner =>
      obtain ⟨rfl, same⟩ := List.cons.inj later
      obtain ⟨c, gap, rfl⟩ := List.exists_cons_of_ne_nil full
      cases inner with
      | nil =>
        exact .inl ⟨b, head?_compact_eq_some.mpr ⟨visible, _, after, same.symm, blank⟩, letter'⟩
      | cons e inner =>
        -- The gap would begin with a letter of the run.
        obtain ⟨rfl, -⟩ := List.cons.inj same
        have letter : isLetter c = true := run c (by simp)
        have := isBlank_eq_false_of_isLetter letter
        simp [blank c List.mem_cons_self] at this
  · rintro (⟨b, first, letter⟩ | broken)
    · obtain ⟨visible, gap, after, rfl, blank⟩ := head?_compact_eq_some.mp first
      obtain ⟨front, a, rfl⟩ := (List.eq_nil_or_concat word).resolve_left nonempty
      refine ⟨front, a, gap, b, after, by simp, run a (by simp), letter, ?_, blank⟩
      rintro rfl
      rw [apart b rfl] at letter
      cases letter
    · exact broken.append word

theorem compact_letters (run : ∀ c ∈ word, isLetter c = true) : compact word = word :=
  compact_eq_self fun c member => isBlank_eq_false_of_isLetter (run c member)

/-- A run of letters in front of letters makes their first run longer. -/
theorem length_runs_append (run : ∀ c ∈ word, isLetter c = true) {b : Char}
    (first : b ∈ rest.head?) (letter : isLetter b = true) :
    (runs isLetter (word ++ rest)).length = (runs isLetter rest).length := by
  cases word with
  | nil => rfl
  | cons c word =>
    cases rest with
    | nil => cases first
    | cons d rest =>
      obtain rfl : d = b := Option.some.inj first
      have more : ∀ c ∈ word ++ [d], isLetter c = true := by
        intro c member
        rcases List.mem_append.mp member with inside | last
        · exact run c (List.mem_cons_of_mem _ inside)
        · rwa [List.mem_singleton.mp last]
      have split : word ++ d :: rest = (word ++ [d]) ++ rest := by simp
      rw [List.cons_append, runs, if_pos (run c List.mem_cons_self), runs, if_pos letter, split,
        List.dropWhile_append_of_pos more]
      simp

/-- The blanks can be left out without loss of a run of letters unless they break one off. -/
theorem runs_compact (text : List Char) :
    (Broken text → (runs isLetter (compact text)).length < (runs isLetter text).length) ∧
      (¬ Broken text → runs isLetter (compact text) = runs isLetter text) := by
  fun_induction runs isLetter text with
  | case1 => exact ⟨fun broken => absurd broken not_broken_nil, fun _ => by simp [compact, runs]⟩
  | case2 c rest letter ih =>
    have run : ∀ d ∈ c :: rest.takeWhile isLetter, isLetter d = true := by
      have run : ∀ d ∈ rest.takeWhile isLetter, isLetter d = true :=
        List.all_eq_true.mp List.all_takeWhile
      simpa [letter] using run
    have apart : ∀ d ∈ (rest.dropWhile isLetter).head?, isLetter d = false := by
      intro d first
      have := List.head?_dropWhile_not isLetter rest
      simpa [Option.mem_def.mp first] using this
    have split : c :: rest = (c :: rest.takeWhile isLetter) ++ rest.dropWhile isLetter := by simp
    have nonempty := List.cons_ne_nil c (rest.takeWhile isLetter)
    generalize c :: rest.takeWhile isLetter = word at run split nonempty
    generalize rest.dropWhile isLetter = others at ih apart split
    have broken := broken_append_iff nonempty run apart
    rw [split, compact_append, compact_letters run]
    have weak : (runs isLetter (compact others)).length ≤ (runs isLetter others).length := by
      by_cases h : Broken others
      · exact (ih.1 h).le
      · rw [ih.2 h]
    by_cases joins : ∃ b ∈ (compact others).head?, isLetter b = true
    · obtain ⟨b, first, letter⟩ := joins
      refine ⟨fun _ => ?_, fun whole => absurd (broken.mpr (.inl ⟨b, first, letter⟩)) whole⟩
      rw [length_runs_append run first letter, List.length_cons]
      omega
    · have apart' : ∀ d ∈ (compact others).head?, isLetter d = false := by simpa using joins
      rw [runs_letters nonempty run apart', broken, or_iff_right joins]
      refine ⟨fun later => ?_, fun whole => by rw [ih.2 whole]⟩
      simpa using ih.1 later
  | case3 c rest other ih =>
    have other : isLetter c = false := by simpa using other
    have same : runs isLetter (compact (c :: rest)) = runs isLetter (compact rest) := by
      cases blank : isBlank c with
      | true => simp [compact, blank]
      | false =>
        have visible : compact (c :: rest) = c :: compact rest := by simp [compact, blank]
        rw [visible, runs, other]
        rfl
    rwa [same, broken_cons_iff other]

/-- In the text of a formula no blanks stand between two letters. -/
theorem not_broken_of_read {text : List Char} {t : Formula} (read : Formula.read text = .ok t) :
    ¬ Broken text := by
  obtain ⟨found, lexed, derives⟩ := read_eq_ok_iff.mp read
  have reads := tokens_eq_ok_iff.mp lexed
  have names := (reads.compact derives.separate 1).runs_eq
  rw [List.filterMap_map] at names
  have same := congrArg List.length (names.trans reads.runs_eq.symm)
  rw [List.length_map, List.length_map] at same
  intro broken
  have := (runs_compact text).1 broken
  omega

/-! ### Labels -/

def columnLabels (text : List Char) : List String :=
  variableNames text ++ (subexpressions text).map (fun part => "(" ++ part ++ ")") ++ [resultLabel]

theorem label_read {label text : String} {column : Column}
    (read : Column.read label text = .ok column) : column.label = label := by
  unfold Column.read at read
  split at read <;> cases read
  rfl

theorem label_cell {valuation : List (String × Bool)} {column : Column} {cell : String × Bool}
    (value : column.cell valuation = .ok cell) : cell.1 = column.label := by
  unfold Column.cell at value
  split at value <;> cases value
  rfl

theorem map_eq_of_forall₂ {α β γ : Type} {r : α → β → Prop} {f : α → γ} {g : β → γ} {l : List α}
    {m : List β} (all : List.Forall₂ r l m) (same : ∀ x y, r x y → g y = f x) :
    m.map g = l.map f := by
  induction all with
  | nil => rfl
  | cons holds _ ih => rw [List.map_cons, List.map_cons, same _ _ holds, ih]

theorem labels_row {names : List String} {columns : List Column} {i : Nat} {made : Row}
    (run : row names columns i = .ok made) :
    made.labels = names ++ columns.map Column.label := by
  obtain ⟨cells, values, same⟩ := bind_eq_ok run
  cases same
  have labels : cells.map Prod.fst = columns.map Column.label :=
    map_eq_of_forall₂ (forall₂_of_mapM values) fun _ _ => label_cell
  rw [Row.labels, List.map_append, labels, fst_valuation]

/-- The rows of the table of a text without blanks, if it has one. -/
theorem labels_rows {text : List Char} {table : List Row} (run : rows text = .ok table) :
    table.length = 2 ^ (variableNames text).length ∧
      ∀ row ∈ table, row.labels = columnLabels text := by
  obtain ⟨parts, readParts, run⟩ := bind_eq_ok run
  obtain ⟨whole, readWhole, run⟩ := bind_eq_ok run
  split at run
  next => cases run
  split at run
  next => cases run
  have made := forall₂_of_mapM run
  refine ⟨?_, fun row member => ?_⟩
  · rw [← made.length_eq, List.length_range, Nat.one_shiftLeft]
  · obtain ⟨i, -, run⟩ := exists_of_forall₂ made member
    have labels : parts.map Column.label =
        (subexpressions text).map fun part => "(" ++ part ++ ")" :=
      map_eq_of_forall₂ (forall₂_of_mapM readParts) fun _ _ => label_read
    rw [labels_row run, List.map_append, labels, List.map_singleton, label_read readWhole,
      columnLabels, List.append_assoc]

theorem labels_truthTable {text : List Char} {table : List Row}
    (made : truthTable text = .ok table) :
    table.length = 2 ^ (variableNames (compact text)).length ∧
      ∀ row ∈ table, row.labels = columnLabels (compact text) := by
  unfold truthTable at made
  split at made
  next => cases made
  next => exact labels_rows made

end Proposition

namespace CommandLine

open Proposition

theorem length_tableLines {table : List Row} (nonempty : table ≠ []) :
    (tableLines table).length = table.length + 2 := by
  obtain ⟨first, rest, rfl⟩ := List.exists_cons_of_ne_nil nonempty
  simp [tableLines]

/-- The lines for the table of a formula: its labels, a rule and its rows. -/
theorem length_printed {expression : String} {table : List Row}
    (made : truthTable expression.toList = .ok table) (limit : Nat) :
    (runTruthTable expression limit).printed.length =
      if limit < (variableNames expression.toList).length then 0 else table.length + 2 := by
  have nonempty : table ≠ [] := by
    rintro rfl
    have count := (labels_truthTable made).1
    exact absurd count.symm (Nat.two_pow_pos _).ne'
  simp only [runTruthTable, made]
  split_ifs
  · rfl
  · exact length_tableLines nonempty

/-- The table of a text is that of its runs of letters without blanks. These are the variables of
the text unless blanks stand between two letters, which they never do in a formula, and then the
program prints no more rows than the limit on the variables allows. -/
theorem truthTable_columns {expression : String} {table : List Row}
    (made : truthTable expression.toList = .ok table) :
    (∀ row ∈ table, row.labels = columnLabels (compact expression.toList)) ∧
      table.length = 2 ^ (variableNames (compact expression.toList)).length ∧
      (∀ limit, (runTruthTable expression limit).printed.length =
        if limit < (variableNames expression.toList).length then 0 else table.length + 2) ∧
      (Broken expression.toList →
        (runs isLetter (compact expression.toList)).length <
          (runs isLetter expression.toList).length) ∧
      (∀ t, Formula.read expression.toList = .ok t → ¬ Broken expression.toList) ∧
      (¬ Broken expression.toList →
        variableNames (compact expression.toList) = variableNames expression.toList ∧
        table.length = 2 ^ (variableNames expression.toList).length ∧
        ∀ limit, (runTruthTable expression limit).printed.length ≤ 2 ^ limit + 2) := by
  obtain ⟨count, labels⟩ := labels_truthTable made
  obtain ⟨broken, whole⟩ := runs_compact expression.toList
  refine ⟨labels, count, length_printed made, broken, fun t => not_broken_of_read,
    fun unbroken => ?_⟩
  have same : variableNames (compact expression.toList) = variableNames expression.toList := by
    rw [variableNames, whole unbroken, variableNames]
  rw [same] at count
  refine ⟨same, count, fun limit => ?_⟩
  rw [length_printed made]
  split_ifs with few
  · exact Nat.zero_le _
  · rw [count]
    exact Nat.add_le_add_right (Nat.pow_le_pow_right two_pos (Nat.not_lt.mp few)) 2

/-- A no-break space is a blank, but the reader does not skip it. -/
theorem truthTable_columns_space :
    ∃ table, truthTable "p\u00a0→ q".toList = .ok table ∧ ¬ Broken "p\u00a0→ q".toList ∧
      table.length = 4 ∧ (∀ row ∈ table, row.labels = ["p", "q", "result"]) ∧
      ∀ limit, (runTruthTable "p\u00a0→ q" limit).printed.length ≤ 2 ^ limit + 2 := by
  have made : truthTable "p\u00a0→ q".toList = .ok
      [⟨[("p", false), ("q", false), ("result", true)]⟩,
        ⟨[("p", true), ("q", false), ("result", false)]⟩,
        ⟨[("p", false), ("q", true), ("result", true)]⟩,
        ⟨[("p", true), ("q", true), ("result", true)]⟩] := by decide +kernel
  obtain ⟨labels, -, -, broken, -, unbroken⟩ := truthTable_columns made
  have whole : ¬ Broken "p\u00a0→ q".toList := fun h => absurd (broken h) (by decide +kernel)
  obtain ⟨-, count, bound⟩ := unbroken whole
  have names : columnLabels (compact "p\u00a0→ q".toList) = ["p", "q", "result"] := by
    decide +kernel
  exact ⟨_, made, whole, rfl, names ▸ labels, bound⟩

/-- With blanks between letters the text has one variable and its table has two. A limit of one
variable lets all four rows through. -/
theorem truthTable_columns_broken :
    ∃ table, truthTable "p p ∧ p".toList = .ok table ∧ variableNames "p p ∧ p".toList = ["p"] ∧
      table.length = 4 ∧ (∀ row ∈ table, row.labels = ["p", "pp", "result"]) ∧
      (runTruthTable "p p ∧ p" 1).printed.length = 4 + 2 := by
  have made : truthTable "p p ∧ p".toList = .ok
      [⟨[("p", false), ("pp", false), ("result", false)]⟩,
        ⟨[("p", true), ("pp", false), ("result", false)]⟩,
        ⟨[("p", false), ("pp", true), ("result", false)]⟩,
        ⟨[("p", true), ("pp", true), ("result", true)]⟩] := by decide +kernel
  have names : variableNames "p p ∧ p".toList = ["p"] := by decide +kernel
  have printed := length_printed made 1
  rw [names] at printed
  exact ⟨_, made, names, rfl, by decide, printed⟩

end CommandLine

end DiscreteMath
