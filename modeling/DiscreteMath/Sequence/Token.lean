import DiscreteMath.Number.Literal
import DiscreteMath.Sequence.Formula
import DiscreteMath.Text.Lexeme

/-!
# Tokens of sequence formulas

A token is a number, a name, an operation sign or a parenthesis. A power is written `^` or `**`.
-/

namespace DiscreteMath.Sequence

open Text

inductive Token where
  | number (value : Float)
  | name (letters : String)
  | operation (operation : Operation)
  | opening
  | closing

namespace Token

def text : Token → String
  | number value => Number.shortest value
  | name letters => letters
  | operation op => op.symbol
  | opening => "("
  | closing => ")"

def beginsName (c : Char) : Bool := isLetter c || c == '_'

def continuesName (c : Char) : Bool := beginsName c || c.isDigit

/-- The exponent at the front of a text: `e`, a sign or none, and digits. It is empty if the
digits are missing. -/
def exponentPart : List Char → List Char
  | c :: rest =>
    if c == 'e' || c == 'E' then
      let sign := rest.take 1 |>.filter fun s => s == '+' || s == '-'
      let ds := (rest.drop sign.length).takeWhile Char.isDigit
      if ds.isEmpty then [] else c :: sign ++ ds
    else []
  | [] => []

/-- The fraction at the front of a text: a point and digits. It is empty if the digits are
missing. -/
def fractionPart : List Char → List Char
  | '.' :: rest =>
    let ds := rest.takeWhile Char.isDigit
    if ds.isEmpty then [] else '.' :: ds
  | _ => []

/-- The longest number literal at the front of a text: digits, a fraction or both, and perhaps an
exponent. It is empty if there is none. -/
def numberPart (text : List Char) : List Char :=
  let whole := text.takeWhile Char.isDigit
  let significand := whole ++ fractionPart (text.drop whole.length)
  if significand.isEmpty then []
  else significand ++ exponentPart (text.drop significand.length)

def start? (c : Char) (following : List Char) : Option (Token × Nat) :=
  if beginsName c then
    let more := following.takeWhile continuesName
    some (name (String.ofList (c :: more)), more.length)
  else if c.isDigit || c == '.' then
    let literal := numberPart (c :: following)
    (Number.number? literal).map fun value => (number value, literal.length - 1)
  else match c, following with
    | '+', _ => some (operation .add, 0)
    | '-', _ => some (operation .sub, 0)
    | '*', '*' :: _ => some (operation .pow, 1)
    | '*', _ => some (operation .mul, 0)
    | '/', _ => some (operation .div, 0)
    | '%', _ => some (operation .rem, 0)
    | '^', _ => some (operation .pow, 0)
    | '(', _ => some (opening, 0)
    | ')', _ => some (closing, 0)
    | _, _ => none

end Token

def tokens (text : List Char) : Except ReadError (List (Placed Token)) :=
  tokensOrStray (pieces isSpacing Token.start? 1 text)

end DiscreteMath.Sequence
