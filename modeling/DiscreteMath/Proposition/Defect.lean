import DiscreteMath.Text.Characters

/-!
# Defects of propositional formulas

Before a formula is read its text is checked for defects that are easy to explain. The checks go
by the characters alone and in a fixed order, and `defect?` is the first one found: nothing but
blanks, unmatched parentheses, a connective at one of the ends, a variable that is not a run of
letters, two connectives side by side.
-/

namespace DiscreteMath.Proposition

open Text

/-- A reason to refuse a text before reading it. Positions count characters from 1. -/
inductive Defect where
  | blank
  | unmatchedClosing (position : Nat)
  | unmatchedOpening (position : Nat)
  | leading (spelling : String)
  | trailing (spelling : String)
  | badVariable (word : String)
  | misplacedArrow (position : Nat)
  | arrowBefore (next : Char) (position : Nat)
  | arrowAfter (previous : Char) (position : Nat)
  | adjacent (first second : Char) (position : Nat)
  deriving Repr, DecidableEq

namespace Defect

def message : Defect → String
  | blank => "The expression is empty"
  | unmatchedClosing p => s!"Closing parenthesis without a matching opening one at position {p}"
  | unmatchedOpening p => s!"Opening parenthesis without a matching closing one at position {p}"
  | leading op => s!"The expression cannot start with the binary operator '{op}'"
  | trailing op => s!"The expression cannot end with the binary operator '{op}'"
  | badVariable word => s!"Invalid variable '{word}'. Variables must be letters."
  | misplacedArrow p => s!"Misplaced implication operator '->' at position {p}"
  | arrowBefore c p => s!"Consecutive binary operators '-> {c}' at position {p}"
  | arrowAfter c p => s!"Consecutive binary operators '{c} ->' at position {p}"
  | adjacent c d p => s!"Consecutive binary operators '{c}{d}' at position {p}"

end Defect

def binarySpellings : List String :=
  ["∧", "∨", "⊕", "↔", "→", "⇒", "->", "&&", "||", "ǀǀ"]

def isConnectiveSign (c : Char) : Bool := "∧∨⊕↔→⇒".toList.contains c

/-- A character that begins or ends a connective other than `->`. -/
def isConnectiveEdge (c : Char) : Bool := isConnectiveSign c || "&|ǀ".toList.contains c

/-- The first closing parenthesis without a partner, else the last opening one without. The list
holds the places of the parentheses still open, the innermost first. -/
def parenthesisDefect? (opened : List Nat) (position : Nat) : List Char → Option Defect
  | [] => opened.head?.map .unmatchedOpening
  | c :: rest =>
    if c = '(' then parenthesisDefect? (position :: opened) (position + 1) rest
    else if c = ')' then
      match opened with
      | [] => some (.unmatchedClosing position)
      | _ :: outer => parenthesisDefect? outer (position + 1) rest
    else parenthesisDefect? opened (position + 1) rest

/-- A connective at one of the ends of the trimmed text. -/
def endDefect? (text : List Char) : Option Defect :=
  let trimmed := trim text
  binarySpellings.findSome? fun op =>
    if op.toList.isPrefixOf trimmed then some (.leading op)
    else if op.toList.isSuffixOf trimmed then some (.trailing op)
    else none

/-- Every `ab` replaced by a space, from left to right. -/
def replacePair (a b : Char) : List Char → List Char
  | c :: d :: rest =>
    if c = a && d = b then ' ' :: replacePair a b rest else c :: replacePair a b (d :: rest)
  | text => text

def isSeparator (c : Char) : Bool := isConnectiveSign c || "!¬˜~()".toList.contains c

def withoutOperators (text : List Char) : List Char :=
  let pairs := [('-', '>'), ('&', '&'), ('|', '|'), ('ǀ', 'ǀ')]
  (pairs.foldl (fun cs (a, b) => replacePair a b cs) text).map fun c =>
    if isSeparator c then ' ' else c

/-- The first word between the operators that is not a run of letters. -/
def variableDefect? (text : List Char) : Option Defect :=
  ((words (withoutOperators text)).find? fun word => !word.all isLetter).map fun word =>
    .badVariable (String.ofList word)

/-- The first two connectives side by side, in a text without blanks. `previous?` is the character
before the text and `position` the place of its first one. -/
def adjacencyDefect? (previous? : Option Char) (position : Nat) : List Char → Option Defect
  | c :: d :: rest =>
    if c = '-' && d = '>' then
      match previous?, rest with
      | some previous, next :: _ =>
        if isConnectiveEdge next then some (.arrowBefore next position)
        else if isConnectiveEdge previous then some (.arrowAfter previous (position - 1))
        else adjacencyDefect? (some d) (position + 2) rest
      | _, _ => some (.misplacedArrow position)
    else if isConnectiveSign c && (isConnectiveSign d || d == '-') then
      some (.adjacent c d position)
    else adjacencyDefect? (some c) (position + 1) (d :: rest)
  | _ => none

def defect? (text : List Char) : Option Defect :=
  if (trim text).isEmpty then some .blank
  else
    parenthesisDefect? [] 1 text <|> endDefect? text <|> variableDefect? text <|>
      adjacencyDefect? none 1 (compact text)

end DiscreteMath.Proposition
