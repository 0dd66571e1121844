import DiscreteMath.Number.Exact
import DiscreteMath.Number.Literal
import DiscreteMath.Number.Prime
import DiscreteMath.SetAlgebra.Symbolic

/-!
# The sets of numbers

The predefined sets: natural numbers, integers, rationals, reals, even and odd integers, primes,
the universe and the complex numbers. Fractions and complex numbers are also recognised as texts.
`knownSubset?` is the table of inclusions among them, by label.
-/

namespace DiscreteMath.SetAlgebra

def Datum.integer? : Datum → Option Int
  | number value => Number.toInteger? value
  | _ => none

def Datum.isFinite : Datum → Bool
  | number value => value.isFinite
  | _ => false

/-- A quotient of two integers of 64 bits, the second not zero, such as `-3/4`. -/
def isFraction (text : List Char) : Bool :=
  match text.dropWhile (· != '/') with
  | [] => false
  | _ :: below =>
    let above := text.takeWhile (· != '/')
    (Number.integer? (Text.trim above)).isSome &&
      (Number.integer? (Text.trim below)).any (· != 0)

/-- The factor of an imaginary unit: a number, a sign, or nothing. -/
def isFactor (text : List Char) : Bool :=
  text.isEmpty || text == ['+'] || text == ['-'] || (Number.number? text).isSome

/-- A text cut before its last sign, unless that is its first character. -/
def splitLastSign? (text : List Char) : Option (List Char × List Char) :=
  let isSign := fun c => c == '+' || c == '-'
  let before := (text.reverse.dropWhile fun c => !isSign c).reverse
  if before.length < 2 then none
  else some (before.dropLast, text.drop (before.length - 1))

/-- A complex number such as `i`, `-2i` or `1+2i`. -/
def isComplex (text : List Char) : Bool :=
  match (Text.trim text).reverse with
  | 'i' :: rest =>
    let body := rest.reverse.filter (· != ' ')
    match splitLastSign? body with
    | some (real, imaginary) => (Number.number? real).isSome && isFactor imaginary
    | none => isFactor body
  | _ => false

/-- The predefined sets, in the order in which they are registered. -/
def predefined : List (String × SymbolicSet) :=
  let numbers (values : List Float) := values.map Element.number
  let integral (p : Int → Bool) (x : Datum) := some (x.integer?.any p)
  let numeric (p : List Char → Bool) : Datum → Option Bool
    | .text content => some (p content.toList)
    | x => some x.isFinite
  [("N", .ofRule "ℕ = \x7b0, 1, 2, 3, ...\x7d" (integral (0 ≤ ·)) (numbers [0, 1, 2, 3, 4])),
   ("Z", .ofRule "ℤ = \x7b..., -2, -1, 0, 1, 2, ...\x7d" (integral fun _ => true)
      (numbers [-2, -1, 0, 1, 2])),
   ("Q", .ofRule "ℚ = \x7bp/q | p, q ∈ ℤ, q ≠ 0\x7d" (numeric isFraction)
      (numbers [0, 1, -1, 0.5, -0.5])),
   ("R", .ofRule "ℝ = (-∞, ∞)" (fun x => some x.isFinite) (numbers [0, 1, -1, 0.5])),
   ("E", .ofRule "E = \x7b..., -4, -2, 0, 2, 4, ...\x7d" (integral (· % 2 == 0))
      (numbers [-4, -2, 0, 2, 4])),
   ("O", .ofRule "O = \x7b..., -3, -1, 1, 3, ...\x7d" (integral (· % 2 != 0))
      (numbers [-3, -1, 1, 3])),
   ("P", .ofRule "P = \x7b2, 3, 5, 7, 11, ...\x7d" (integral Number.isPrime)
      (numbers [2, 3, 5, 7, 11])),
   ("U", .ofRule "U" (fun _ => some true) []),
   ("C", .ofRule "ℂ = \x7ba + bi | a, b ∈ ℝ\x7d" (numeric isComplex)
      (numbers [0, 1] ++ [.text "i", .text "1+2i"]))]

def predefinedNames : List String := predefined.map Prod.fst

/-- The labels of the sets that include one another, the smallest first. -/
def chain : List String := ["ℕ", "ℤ", "ℚ", "ℝ", "ℂ", "U"]

/-- The labels beside the chain, with the label on it directly above. -/
def branches : List (String × String) := [("E", "ℤ"), ("O", "ℤ"), ("P", "ℕ")]

/-- Whether the set of one label is included in that of another, if the table has both. -/
def knownSubset? (subset superset : String) : Option Bool :=
  let known (l : String) := chain.contains l || (branches.lookup l).isSome
  if !known subset || !known superset then none
  else if subset == superset then some true
  else
    let start := (branches.lookup subset).getD subset
    some ((chain.dropWhile (· != start)).contains superset)

end DiscreteMath.SetAlgebra
