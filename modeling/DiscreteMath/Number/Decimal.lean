import DiscreteMath.Number.Binary

/-!
# Decimal numbers

A decimal is a natural number scaled by a power of ten. It has a positional text, and a nearest
float: `Decimal.toFloat` rounds to nearest with ties to even.
-/

namespace DiscreteMath.Number

/-- The decimal digits of a natural number, most significant first. -/
def digits (n : Nat) : List Char := Nat.toDigits 10 n

/-- `coefficient * 10 ^ exponent`. -/
structure Decimal where
  coefficient : Nat
  exponent : Int
  deriving Repr, DecidableEq

namespace Decimal

/-- The nearest float. A value of `10 ^ 310` or more is out of range and one below `10 ^ (-330)`
is less than half of the least float; neither is expanded. -/
def toFloat (d : Decimal) : Float :=
  if d.coefficient = 0 then 0
  else
    let magnitude : Int := (digits d.coefficient).length + d.exponent
    if magnitude > 310 then 1.0 / 0.0
    else if magnitude < -330 then 0
    else nearest (d.coefficient * Nat.pow 10 d.exponent.toNat) (Nat.pow 10 (-d.exponent).toNat)

/-- Without the zeros that end the coefficient, as long as the exponent is negative. -/
def stripped (coefficient : Nat) : (places : Nat) → Decimal
  | 0 => ⟨coefficient, 0⟩
  | places + 1 =>
    if coefficient % 10 = 0 then stripped (coefficient / 10) places
    else ⟨coefficient, -((places : Int) + 1)⟩

def normalize (d : Decimal) : Decimal :=
  if d.exponent < 0 then stripped d.coefficient d.exponent.natAbs else d

/-- Written with a point and no exponent; all digits of the coefficient are kept. -/
def positional (d : Decimal) : List Char :=
  let shown := digits d.coefficient
  let whole : Int := shown.length + d.exponent
  if 0 ≤ d.exponent then shown ++ List.replicate d.exponent.natAbs '0'
  else if 0 < whole then shown.take whole.toNat ++ '.' :: shown.drop whole.toNat
  else '0' :: '.' :: List.replicate whole.natAbs '0' ++ shown

end Decimal

end DiscreteMath.Number
