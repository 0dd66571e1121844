import DiscreteMath.Proposition.Defect
import DiscreteMath.Proposition.Reading

/-!
# Truth tables

The table of a formula has one row for each valuation of its variables. The columns are the sorted
variables, then each distinct formula that stands in parentheses, labelled with them, then the
formula itself under the label `result`. In row `i` the `j`-th variable has bit `j` of `i`. Space for
all rows is asked for before the first one is made.
-/

namespace DiscreteMath.Proposition

open Text

inductive TableError where
  | defective (defect : Defect)
  /-- A text or a part of it that cannot be read or has no value. -/
  | unreadable (text : String) (cause : ReadError)
  | tooManyVariables (text : String) (count : Nat)
  /-- More space is asked for than there can be. This is no answer: the program breaks off. -/
  | capacityOverflow
  deriving Repr, DecidableEq

namespace TableError

def message : TableError → String
  | defective defect => s!"Syntax error: {defect.message}"
  | unreadable text cause => s!"Error evaluating the expression: {cause.message} in \"{text}\""
  | tooManyVariables text count =>
    s!"Error evaluating the expression: {count} variables are too many in \"{text}\""
  | capacityOverflow => "capacity overflow"

end TableError

def resultLabel : String := "result"

def insertName (name : String) : List String → List String
  | [] => [name]
  | first :: rest =>
    if name < first then name :: first :: rest
    else if name = first then first :: rest
    else first :: insertName name rest

theorem mem_insertName {name other : String} {names : List String} :
    other ∈ insertName name names ↔ other = name ∨ other ∈ names := by
  induction names with
  | nil => simp [insertName]
  | cons first rest ih =>
    simp only [insertName]
    split
    · simp
    · split <;> grind

theorem pairwise_insertName {name : String} {names : List String}
    (sorted : names.Pairwise (· < ·)) : (insertName name names).Pairwise (· < ·) := by
  induction names with
  | nil => simp [insertName]
  | cons first rest ih =>
    obtain ⟨least, sorted'⟩ := List.pairwise_cons.1 sorted
    simp only [insertName]
    split
    · next lt =>
      refine List.pairwise_cons.2 ⟨fun other h => ?_, sorted⟩
      rcases List.mem_cons.1 h with rfl | h
      · exact lt
      · exact String.lt_trans lt (least other h)
    · split
      · exact sorted
      · next ge ne =>
        refine List.pairwise_cons.2 ⟨fun other h => ?_, ih sorted'⟩
        rcases mem_insertName.1 h with rfl | h
        · exact Std.lt_of_le_of_ne (String.not_lt.1 ge) (Ne.symm ne)
        · exact least other h

/-- The distinct runs of letters of a text, sorted. -/
def variableNames (text : List Char) : List String :=
  ((runs isLetter text).map String.ofList).foldr insertName []

/-- The texts between matching parentheses, in the order in which they are closed. The list holds
what has been read since each parenthesis that is still open, reversed, the innermost first. -/
def groups (opened : List (List Char)) : List Char → List (List Char)
  | [] => []
  | c :: rest =>
    if c = '(' then groups ([] :: opened.map ('(' :: ·)) rest
    else if c = ')' then
      match opened with
      | [] => groups [] rest
      | inner :: outer => inner.reverse :: groups (outer.map (')' :: ·)) rest
    else groups (opened.map (c :: ·)) rest

/-- The distinct texts between matching parentheses other than the whole text. -/
def subexpressions (text : List Char) : List String :=
  (((groups [] text).map String.ofList).filter (· != String.ofList text)).eraseDups

structure Row where
  cells : List (String × Bool)
  deriving Repr, DecidableEq

namespace Row

/-- The first cell under a label. -/
def value? (row : Row) (label : String) : Option Bool := row.cells.lookup label

def result? (row : Row) : Option Bool := row.value? resultLabel

def labels (row : Row) : List String := row.cells.map Prod.fst

end Row

structure Column where
  label : String
  text : String
  formula : Formula

namespace Column

def read (label text : String) : Except TableError Column :=
  match Formula.read text.toList with
  | .ok formula => .ok ⟨label, text, formula⟩
  | .error e => .error (.unreadable text e)

def cell (valuation : List (String × Bool)) (column : Column) :
    Except TableError (String × Bool) :=
  match column.formula.evaluate (valuation.lookup ·) with
  | .ok value => .ok (column.label, value)
  | .error e => .error (.unreadable column.text e)

end Column

def valuation (names : List String) (i : Nat) : List (String × Bool) :=
  names.zipIdx.map fun (name, j) => (name, i.testBit j)

def row (names : List String) (columns : List Column) (i : Nat) : Except TableError Row := do
  let cells ← columns.mapM (Column.cell (valuation names i))
  return ⟨valuation names i ++ cells⟩

def variableLimit : Nat := 63

/-- The bytes that a row takes in a list of rows. -/
def rowSize : Nat := 24

/-- The most bytes that a list may take. -/
def sizeLimit : Nat := 0x7FFFFFFFFFFFFFFF

def rows (text : List Char) : Except TableError (List Row) := do
  let names := variableNames text
  let parts ← (subexpressions text).mapM fun part => Column.read ("(" ++ part ++ ")") part
  let whole ← Column.read resultLabel (String.ofList text)
  if names.length > variableLimit then
    .error (.tooManyVariables (String.ofList text) names.length)
  else if rowSize * (1 <<< names.length) > sizeLimit then .error .capacityOverflow
  else (List.range (1 <<< names.length)).mapM (row names (parts ++ [whole]))

/-- The truth table of a formula. Blanks are left out before the formula is read. -/
def truthTable (text : List Char) : Except TableError (List Row) :=
  match defect? text with
  | some defect => .error (.defective defect)
  | none => rows (compact text)

def padded (width : Nat) (text : String) : String :=
  text ++ String.ofList (List.replicate (width - text.length) ' ')

/-- The table as lines of text: the labels, a rule, and the rows with `T` and `F` in columns as
wide as their labels. -/
def tableLines (table : List Row) : List String :=
  match table with
  | [] => []
  | first :: _ =>
    let widths := first.labels.map String.length
    let rule := widths.map fun width => String.ofList (List.replicate width '-')
    let line (row : Row) :=
      let cells := row.cells.zipWith (fun (_, value) width =>
        padded width (if value then "T" else "F")) widths
      String.ofList (trimEnd (join " | " cells).toList)
    join " | " first.labels :: join "-+-" rule :: table.map line

def render (table : List Row) : String := unlines (tableLines table)

end DiscreteMath.Proposition
