import DiscreteMath.Sequence.Terms

/-!
# Closed forms checked by induction

A closed form is compared with the partial sums of a formula at every index of a range, up to the
first one where they disagree. The report also states what a proof by induction has to show.
-/

namespace DiscreteMath.Sequence

/-- The closed form compared with the partial sum up to one index. -/
structure Check where
  index : Int
  partialSum : Float
  closedForm : Float
  holds : Bool

/-- The outline of a proof by induction and the checks, in ascending order of the indices. -/
structure Report where
  baseCase : String
  hypothesis : String
  inductiveStep : String
  checks : List Check
  counterexample : Option Int

def Report.holds (report : Report) : Bool := report.counterexample.isNone

/-- The greatest difference between values that count as equal, relative to their size. -/
def tolerance : Float := 1e-9

/-- The difference is within the tolerance, relative to the larger value and to one. -/
def agrees (a b : Float) : Bool :=
  (a - b).abs ≤ tolerance * max (max a.abs b.abs) 1

/-- The checks at `count` indices from `n` on, up to the first that fails. -/
def checksFrom (summand closed : Formula) : (count : Nat) → (n : Int) → (sum : Float) →
    (done : List Check) → Except SequenceError (List Check × Option Int)
  | 0, _, _, done => .ok (done.reverse, none)
  | count + 1, n, sum, done => do
    let value ← summand.term n
    let expected ← closed.term n
    let total := sum + value
    let check := ⟨n, total, expected, agrees total expected⟩
    if check.holds then checksFrom summand closed count (n + 1) total (check :: done)
    else return ((check :: done).reverse, some n)

/-- Outlines a proof that the sum of a formula from `lower` on has a closed form, and checks the
closed form up to `upper`. Both are written in `k`. -/
def explainInduction (limit : Option Nat) (text closedText : List Char) (lower upper : Int) :
    Except SequenceError Report := do
  let summand ← compile text
  let closed ← compile closedText
  checkRange limit lower upper
  let first ← summand.term lower
  let closedFirst ← closed.term lower
  let (checks, counterexample) ← checksFrom summand closed (rangeSize lower upper) lower 0 []
  let s := summand.text
  let c := closed.text
  return {
    baseCase := s!"For k = {lower}: the sum has the single term {s} = {Number.plain first}, " ++
      s!"and the closed form gives {c} = {Number.plain closedFirst}."
    hypothesis := s!"Assume Σ_\x7bi={lower}\x7d^\x7bn\x7d ({s})[k=i] = ({c})[k=n] " ++
      s!"for some n ≥ {lower}."
    inductiveStep := s!"Show that ({c})[k=n] + ({s})[k=n+1] = ({c})[k=n+1], " ++
      "so the equality carries over to n + 1."
    checks, counterexample }

end DiscreteMath.Sequence
