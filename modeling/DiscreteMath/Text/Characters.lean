/-!
# Characters and texts

`isBlank` is the Unicode property `White_Space`; trimming a text, leaving its blanks out and
cutting it into words go by it. `isSpacing` is the smaller class that may stand between two
lexemes. Texts are put together with a separator by `join` and as lines by `unlines`.
-/

namespace DiscreteMath.Text

/-- The characters with the property `White_Space`. -/
def isBlank (c : Char) : Bool :=
  let n := c.toNat
  (0x9 ≤ n && n ≤ 0xD) || n == 0x20 || n == 0x85 || n == 0xA0 || n == 0x1680 ||
    (0x2000 ≤ n && n ≤ 0x200A) || n == 0x2028 || n == 0x2029 || n == 0x202F || n == 0x205F ||
    n == 0x3000

/-- The blanks between lexemes: space, tab, carriage return, line feed and form feed. -/
def isSpacing (c : Char) : Bool :=
  c == ' ' || c == '\t' || c == '\r' || c == '\n' || c == '\x0c'

theorem isBlank_of_isSpacing {c : Char} (h : isSpacing c = true) : isBlank c = true := by
  simp only [isSpacing, Bool.or_eq_true, beq_iff_eq] at h
  rcases h with (((rfl | rfl) | rfl) | rfl) | rfl <;> decide

def trim (text : List Char) : List Char :=
  ((text.dropWhile isBlank).reverse.dropWhile isBlank).reverse

def trimEnd (text : List Char) : List Char :=
  (text.reverse.dropWhile isBlank).reverse

def compact (text : List Char) : List Char :=
  text.filter fun c => !isBlank c

theorem length_dropWhile_le (p : α → Bool) (l : List α) : (l.dropWhile p).length ≤ l.length :=
  (List.dropWhile_sublist p).length_le

theorem length_trim_le (text : List Char) : (trim text).length ≤ text.length := by
  have outer := length_dropWhile_le isBlank (text.dropWhile isBlank).reverse
  have inner := length_dropWhile_le isBlank text
  simp only [trim, List.length_reverse] at *
  omega

/-- The maximal runs of characters that `p` accepts, in order. -/
def runs (p : Char → Bool) : List Char → List (List Char)
  | [] => []
  | c :: rest =>
    if p c then (c :: rest.takeWhile p) :: runs p (rest.dropWhile p) else runs p rest
termination_by text => text.length
decreasing_by
  · have := length_dropWhile_le p rest
    simp only [List.length_cons]
    omega
  · simp

def words (text : List Char) : List (List Char) :=
  runs (fun c => !isBlank c) text

/-- An ASCII letter. -/
def isLetter (c : Char) : Bool := c.isAlpha

def join (separator : String) : List String → String
  | [] => ""
  | [text] => text
  | text :: rest => text ++ separator ++ join separator rest

/-- Lines as a text; each ends with a line feed. -/
def unlines (lines : List String) : String := String.join (lines.map (· ++ "\n"))

end DiscreteMath.Text
