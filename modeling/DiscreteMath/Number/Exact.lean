import DiscreteMath.Number.Binary

/-!
# Integers among the floats

From `-(2 ^ 53 - 1)` to `2 ^ 53 - 1` the integers and the integral floats correspond one to one.
`ofInteger?` and `toInteger?` are the two directions; beyond, both refuse.
-/

namespace DiscreteMath.Number

/-- The largest integer of which no other shares the float. -/
def exactBound : Nat := 0x1FFFFFFFFFFFFF

def ofInteger? (n : Int) : Option Float :=
  if n.natAbs ≤ exactBound then some (Float.ofInt n) else none

/-- The integer that a float is, within the exact bound. -/
def toInteger? (x : Float) : Option Int :=
  if !x.isFinite then none
  else ((Binary.ofFloat x).whole?.filter (· ≤ exactBound)).map fun n =>
    if isNegative x then -(n : Int) else n

/-- The remainder of a division truncated toward zero. It has the sign of `x`. -/
def remainder (x y : Float) : Float :=
  if !x.isFinite || y.isNaN || y == 0 then 0.0 / 0.0
  else if y.isInf || x == 0 then x
  else
    let r := ((Binary.ofFloat x).remainder (Binary.ofFloat y)).toFloat
    if isNegative x then -r else r

def greatest : Float := Float.ofBits 0x7FEFFFFFFFFFFFFF

end DiscreteMath.Number
