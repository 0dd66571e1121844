import DiscreteMath.Number.Word

/-!
# Primality by trial division

An odd number is divided by 3, 5, 7, … until the quotient is less than the divisor. The numbers are
integers of 64 bits: there is no answer where an operation on the way has no result.
-/

namespace DiscreteMath.Number

/-- None of `d, d + 2, d + 4, …` divides `n`, as far as they are not greater than their quotient. -/
def noFactorFrom? (n d : Int64) : Option Bool := do
  if d ≤ (← Word.quotient? n d) then
    if (← Word.remainder? n d) == 0 then return false
    let ⟨next, _⟩ ← (Word.sum? d 2).attach
    noFactorFrom? n next
  else
    return true
termination_by (Int64.maxValue.toInt - d.toInt).toNat
decreasing_by
  have next_eq := Word.sum?_eq_some_iff.mp ‹_›
  have := next.toInt_le
  have : Int64.toInt 2 = 2 := rfl
  omega

def isPrime? (n : Int64) : Option Bool := do
  if n < 2 then return false
  if (← Word.remainder? n 2) == 0 then return n == 2
  noFactorFrom? n 3

/-- A prime number of 64 bits. -/
def isPrime (n : Int) : Bool := (Word.ofInt? n).bind isPrime? == some true

end DiscreteMath.Number
