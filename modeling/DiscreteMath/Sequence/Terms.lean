import DiscreteMath.Sequence.Error
import DiscreteMath.Sequence.Reading

/-!
# Terms, sum and product over a range

The terms of a formula are computed for the indices of a range in ascending order, up to the first
one that fails. Sum and product are accumulated on the way. A product that has become zero stays
zero, and one that leaves the range of the floats is clamped to the greatest of them.
-/

namespace DiscreteMath.Sequence

open Text

def compile (text : List Char) : Except SequenceError Formula :=
  let opened := text.count '('
  let closed := text.count ')'
  if (trim text).isEmpty then .error .emptyFormula
  else if !text.contains 'k' then .error .missingIndex
  else if opened ≠ closed then .error (.unbalanced opened closed)
  else match Formula.read text with
    | .ok formula => .ok formula
    | .error (.unknownName name _) => .error (.undefinedName name)
    | .error cause => .error (.malformed cause)

def rangeSize (lower upper : Int) : Nat := (upper - lower + 1).toNat

def checkRange (limit : Option Nat) (lower upper : Int) : Except SequenceError Unit :=
  if upper < lower then .error (.invalidBounds lower upper)
  else match limit with
    | some most =>
      if rangeSize lower upper > most then .error (.tooManyTerms most) else .ok ()
    | none => .ok ()

def Formula.term (formula : Formula) (k : Int) : Except SequenceError Float :=
  match Number.ofInteger? k with
  | none => .error (.inexactIndex k)
  | some x =>
    let value := formula.evaluate x
    if value.isFinite then .ok value else .error (.nonFiniteTerm k)

/-- The terms up to some index with their sum and product, and the indices where the product was
clamped. -/
structure Totals where
  terms : List (Int × Float)
  sum : Float
  product : Float
  clampedAt : List Int

namespace Totals

def empty : Totals := ⟨[], 0, 1, []⟩

def add (t : Totals) (k : Int) (value : Float) : Totals :=
  let next := t.product * value
  let terms := (k, value) :: t.terms
  let sum := t.sum + value
  if t.product == 0 then { t with terms, sum }
  else if next.isFinite then { t with terms, sum, product := next }
  else
    let clamped := if Number.isNegative next then -Number.greatest else Number.greatest
    { terms, sum, product := clamped, clampedAt := k :: t.clampedAt }

def ascending (t : Totals) : Totals :=
  { t with terms := t.terms.reverse, clampedAt := t.clampedAt.reverse }

end Totals

/-- Adds the terms at `count` indices from `k` on. The last term comes first in the lists. Stops
at the first term that fails and says why. -/
def accumulate (formula : Formula) : (count : Nat) → (k : Int) → Totals →
    Totals × Option SequenceError
  | 0, _, totals => (totals, none)
  | count + 1, k, totals =>
    match formula.term k with
    | .ok value => accumulate formula count (k + 1) (totals.add k value)
    | .error e => (totals, some e)

structure Summary where
  formula : Formula
  totals : Totals

/-- The outcome of a range: the summary or an error, and the indices where the product was clamped
before. -/
structure Outcome where
  summary : Except SequenceError Summary
  clampedAt : List Int

def summarize (limit : Option Nat) (text : List Char) (lower upper : Int) : Outcome :=
  match (do let formula ← compile text; checkRange limit lower upper; return formula) with
  | .error e => ⟨.error e, []⟩
  | .ok formula =>
    let (reversed, failure) := accumulate formula (rangeSize lower upper) lower .empty
    let totals := reversed.ascending
    match failure with
    | some e => ⟨.error e, totals.clampedAt⟩
    | none => ⟨.ok ⟨formula, totals⟩, totals.clampedAt⟩

def clampWarning (k : Int) : String :=
  s!"product overflowed at k={k}; clamping to the largest finite value"

/-- A product as it is shown: a clamped one as infinite, a large one with an exponent, all others
with four places. -/
def productText (product : Float) : String :=
  if product == Number.greatest then "∞ (too large to display)"
  else if product == -Number.greatest then "-∞ (too large to display)"
  else if product.abs > 100000 then Number.scientific 4 product
  else Number.fixed 4 product

end DiscreteMath.Sequence
