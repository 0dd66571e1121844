import DiscreteMath.Number.Decimal

/-!
# Numbers written as text

Three notations. `shortest` has the fewest digits that read back as the same float, written
positionally. `fixed` has a set number of places, and `scientific` a set number of places after
the leading digit; both round the exact value, a half to the even neighbour.
-/

namespace DiscreteMath.Number

namespace Binary

/-- The least `k` with the value below `10 ^ k`, for a value other than zero. -/
def magnitude (b : Binary) : Int :=
  if b.denominator ≤ b.numerator then (digits (b.numerator / b.denominator)).length
  else 1 - (digits ((b.denominator - 1) / b.numerator)).length

/-- Numerator and denominator of the value in units of `10 ^ exponent`. -/
def inUnits (b : Binary) (exponent : Int) : Nat × Nat :=
  (b.numerator * Nat.pow 10 (-exponent).toNat, b.denominator * Nat.pow 10 exponent.toNat)

end Binary

/-- Among the two multiples of `10 ^ exponent` next to the float, the nearest one that reads back;
of two equally near ones the greater. -/
def readingBack? (x : Float) (exponent : Int) : Option Decimal :=
  let (numerator, denominator) := (Binary.ofFloat x).inUnits exponent
  let below := numerator / denominator
  let reads (n : Nat) := (Decimal.mk n exponent).toFloat.toBits == x.toBits
  if 2 * (numerator % denominator) < denominator then
    if reads below then some ⟨below, exponent⟩
    else if reads (below + 1) then some ⟨below + 1, exponent⟩ else none
  else
    if reads (below + 1) then some ⟨below + 1, exponent⟩
    else if reads below then some ⟨below, exponent⟩ else none

def exactDecimal (b : Binary) : Decimal :=
  ⟨b.numerator * Nat.pow 5 (-b.exponent).toNat, min b.exponent 0⟩

/-- The decimal with the fewest digits that reads back as a positive finite float. Seventeen are
enough. -/
def shortestDecimal (x : Float) : Decimal :=
  let b := Binary.ofFloat x
  let magnitude := b.magnitude
  let found := (List.range 17).findSome? fun (n : Nat) => readingBack? x (magnitude - (n + 1))
  (found.getD (exactDecimal b)).normalize

/-- A notation for positive finite floats, extended to all of them. -/
def signed (zero : String) (positive : Float → List Char) (x : Float) : String :=
  if x.isNaN then "NaN"
  else
    let magnitude :=
      if x.isInf then "inf" else if x == 0 then zero else String.ofList (positive x.abs)
    if isNegative x then "-" ++ magnitude else magnitude

/-- The fewest digits that read back, without an exponent. -/
def shortest : Float → String :=
  signed "0" fun x => (shortestDecimal x).positional

def fixed (places : Nat) (x : Float) : String :=
  let layout (n : Nat) := (Decimal.mk n (-(places : Int))).positional
  signed (String.ofList (layout 0)) (fun x =>
    let (numerator, denominator) := (Binary.ofFloat x).inUnits (-(places : Int))
    layout (roundHalfEven numerator denominator)) x

/-- The leading digit, `places` digits after a point, and the exponent. -/
def scientificLayout (places coefficient : Nat) (exponent : Int) : List Char :=
  (Decimal.mk coefficient (-(places : Int))).positional ++ 'e' :: (toString exponent).toList

def scientific (places : Nat) (x : Float) : String :=
  signed (String.ofList (scientificLayout places 0 0)) (fun x =>
    let b := Binary.ofFloat x
    let leading := b.magnitude - 1
    let (numerator, denominator) := b.inUnits (leading - places)
    let coefficient := roundHalfEven numerator denominator
    if coefficient = Nat.pow 10 (places + 1) then
      scientificLayout places (Nat.pow 10 places) (leading + 1)
    else scientificLayout places coefficient leading) x

/-- A number as it is written in a set literal: the shortest notation, zero without a sign. -/
def plain (x : Float) : String :=
  if x == 0 then "0" else shortest x

end DiscreteMath.Number
