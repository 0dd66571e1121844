import DiscreteMath.SetAlgebra.Operation
import DiscreteMath.Text.Lexeme

/-!
# Tokens of set expressions

Every capital letter is the name of a set, so that `AB` is `A` followed by `B`. Blanks and braces
do not count, and what is no part of the language is ignored: a run of small letters, digits,
underscores and points as one text, any other character by itself.
-/

namespace DiscreteMath.SetAlgebra

open Text

inductive Token where
  | name (letter : String)
  | operation (operation : Operation)
  | opening
  | closing
  /-- A run of small letters, digits and the like. -/
  | unknown (text : String)
  /-- Blanks and braces. They are skipped in a text, so that no text has this token. -/
  | spacing
  deriving Repr, DecidableEq

namespace Token

def text : Token → String
  | name letter => letter
  | operation op => op.symbol
  | opening => "("
  | closing => ")"
  | unknown text => text
  | spacing => ""

def isWordCharacter (c : Char) : Bool := c.isLower || c.isDigit || c == '_' || c == '.'

def start? (c : Char) (following : List Char) : Option (Token × Nat) :=
  if c.isUpper then some (name (String.singleton c), 0)
  else if isWordCharacter c then
    let more := following.takeWhile isWordCharacter
    some (unknown (String.ofList (c :: more)), more.length)
  else match c with
    | '∪' => some (operation .union, 0)
    | '∩' => some (operation .intersection, 0)
    | '-' => some (operation .difference, 0)
    | 'Δ' | '∆' => some (operation .symmetricDifference, 0)
    | '⊆' => some (operation .subset, 0)
    | 'ᶜ' => some (operation .complement, 0)
    | '(' => some (opening, 0)
    | ')' => some (closing, 0)
    | _ => none

def ofPiece? : Piece Token → Option Token
  | .token (unknown _) | .stray _ => none
  | .token token => some token

def ignored? : Piece Token → Option String
  | .token (unknown text) => some text
  | .stray c => some (String.singleton c)
  | .token _ => none

end Token

def isSkipped (c : Char) : Bool := isSpacing c || c == '\x7b' || c == '\x7d'

def cut (text : List Char) : List (Piece Token) :=
  (pieces isSkipped Token.start? 1 text).map Placed.value

def tokens (text : List Char) : List Token := (cut text).filterMap Token.ofPiece?

def ignoredTexts (text : List Char) : List String := (cut text).filterMap Token.ignored?

def ignoredWarning (text : String) : String := s!"unrecognised token '{text}' ignored"

end DiscreteMath.SetAlgebra
