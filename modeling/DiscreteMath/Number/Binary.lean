/-!
# The exact value of a float

A finite float is `± mantissa * 2 ^ exponent`. Everything that has to be exact, such as reading,
printing, remainders and the test for an integer, is computed on these two numbers. `nearest` goes
back from an exact quotient to a float: to the nearest one, a half to the even mantissa.
-/

namespace DiscreteMath.Number

/-- `numerator / denominator` rounded to a natural number, a half to the even one. -/
def roundHalfEven (numerator denominator : Nat) : Nat :=
  let quotient := numerator / denominator
  let twice := 2 * (numerator % denominator)
  if twice < denominator || (twice == denominator && quotient % 2 == 0) then quotient
  else quotient + 1

/-- The exponent of the last binary digit of a float near `numerator / denominator`: the quotient
has 53 digits above it, or less if it is too small. -/
def lastPlace (numerator denominator : Nat) : Int :=
  let estimate : Int := numerator.log2 - denominator.log2
  let below := numerator <<< (-estimate).toNat < denominator <<< estimate.toNat
  max (if below then estimate - 53 else estimate - 52) (-1074)

def infinityBits : Nat := 0x7FF0000000000000

/-- The bits of `mantissa * 2 ^ exponent` for a mantissa up to `2 ^ 53` that has 53 digits unless
the exponent is the least one. The exponent field then counts the leading digit once more. -/
def bitsOf (mantissa : Nat) (exponent : Int) : Nat :=
  ((exponent + 1074).toNat <<< 52) + mantissa

/-- The float nearest to `numerator / denominator`. -/
def nearest (numerator denominator : Nat) : Float :=
  if numerator = 0 then 0
  else
    let e := lastPlace numerator denominator
    let mantissa := roundHalfEven (numerator <<< (-e).toNat) (denominator <<< e.toNat)
    Float.ofBits (UInt64.ofNat (min (bitsOf mantissa e) infinityBits))

/-- The sign bit is set. -/
def isNegative (x : Float) : Bool := x.toBits >>> 63 == 1

/-- `mantissa * 2 ^ exponent`. -/
structure Binary where
  mantissa : Nat
  exponent : Int
  deriving Repr, DecidableEq

namespace Binary

/-- The absolute value of a finite float. -/
def ofFloat (x : Float) : Binary :=
  let biased := ((x.toBits >>> 52) &&& 0x7FF).toNat
  let fraction := (x.toBits &&& 0xFFFFFFFFFFFFF).toNat
  if biased = 0 then ⟨fraction, -1074⟩ else ⟨0x10000000000000 + fraction, (biased : Int) - 1075⟩

def numerator (b : Binary) : Nat := b.mantissa <<< b.exponent.toNat

def denominator (b : Binary) : Nat := 1 <<< (-b.exponent).toNat

def toFloat (b : Binary) : Float := nearest b.numerator b.denominator

def whole? (b : Binary) : Option Nat :=
  if b.numerator % b.denominator = 0 then some (b.numerator / b.denominator) else none

/-- The remainder of a division by a value other than zero, which is exact. -/
def remainder (a b : Binary) : Binary :=
  let exponent := min a.exponent b.exponent
  let scaled (v : Binary) := v.mantissa <<< (v.exponent - exponent).toNat
  ⟨scaled a % scaled b, exponent⟩

end Binary

end DiscreteMath.Number
