import DiscreteMath.Number.Decimal

/-!
# Numbers read from text

`number?` reads decimals such as `2.5`, `.5`, `5.` and `-1e-3`, and the names of the infinities and
of the undefined value in any case. `integer?` reads the integers of 64 bits.
-/

namespace DiscreteMath.Number

def digitsValue (ds : List Char) : Nat :=
  ds.foldl (fun n d => 10 * n + (d.toNat - '0'.toNat)) 0

/-- A sign, if there is one, and what follows it; the flag is set for a minus. -/
def splitSign : List Char → Bool × List Char
  | '-' :: rest => (true, rest)
  | '+' :: rest => (false, rest)
  | text => (false, text)

def unboundedInteger? (text : List Char) : Option Int :=
  let (negative, ds) := splitSign text
  if ds.isEmpty || !ds.all Char.isDigit then none
  else some (if negative then -(digitsValue ds : Int) else digitsValue ds)

inductive IntegerFault where
  | empty | invalidDigit | tooLarge | tooSmall
  deriving Repr, DecidableEq

/-- An integer from `least` to `greatest`. There is no minus in front of a number of a range
without negative ones. A range is left before a digit is found to be invalid. -/
def readInteger (least greatest : Int) (text : List Char) : Except IntegerFault Int :=
  let (negative, ds) := splitSign text
  let value : Int := digitsValue (ds.takeWhile Char.isDigit)
  let signed := if negative then -value else value
  if text.isEmpty then .error .empty
  else if ds.isEmpty || (negative && 0 ≤ least) then .error .invalidDigit
  else if greatest < signed then .error .tooLarge
  else if signed < least then .error .tooSmall
  else if !ds.all Char.isDigit then .error .invalidDigit
  else .ok signed

/-- The least integer of 64 bits, `-2 ^ 63`. -/
def leastInteger : Int := -0x8000000000000000

/-- The greatest integer of 64 bits, `2 ^ 63 - 1`. -/
def greatestInteger : Int := 0x7FFFFFFFFFFFFFFF

/-- The greatest natural number of 64 bits, `2 ^ 64 - 1`. -/
def greatestNatural : Int := 0xFFFFFFFFFFFFFFFF

/-- An integer of 64 bits. -/
def integer? (text : List Char) : Option Int :=
  (readInteger leastInteger greatestInteger text).toOption

/-- The exponent that ends a decimal: nothing, or `e` and an integer. -/
def exponent? : List Char → Option Int
  | [] => some 0
  | c :: rest => if c == 'e' || c == 'E' then unboundedInteger? rest else none

/-- A decimal without a sign. At least one digit stands before or after the point. -/
def decimal? (text : List Char) : Option Decimal :=
  let whole := text.takeWhile Char.isDigit
  let (fraction, rest) := match text.dropWhile Char.isDigit with
    | '.' :: after => (after.takeWhile Char.isDigit, after.dropWhile Char.isDigit)
    | after => ([], after)
  if whole.isEmpty && fraction.isEmpty then none
  else (exponent? rest).map fun e => ⟨digitsValue (whole ++ fraction), e - fraction.length⟩

def magnitude? (text : List Char) : Option Float :=
  let name := String.ofList (text.map Char.toLower)
  if name == "inf" || name == "infinity" then some (1.0 / 0.0)
  else if name == "nan" then some (0.0 / 0.0)
  else (decimal? text).map Decimal.toFloat

def number? (text : List Char) : Option Float :=
  let (negative, rest) := splitSign text
  (magnitude? rest).map fun x => if negative then -x else x

end DiscreteMath.Number
