import DiscreteMath.Text.Lexeme

/-!
# Errors of sequences

Why a formula has no terms over a range of indices.
-/

namespace DiscreteMath.Sequence

inductive SequenceError where
  | emptyFormula
  /-- The index does not occur in the formula. -/
  | missingIndex
  | malformed (cause : Text.ReadError)
  | undefinedName (name : String)
  | unbalanced (opened closed : Nat)
  /-- The term at `k` is infinite or undefined. -/
  | nonFiniteTerm (k : Int)
  /-- The index `k` is not exact as a float. -/
  | inexactIndex (k : Int)
  | invalidBounds (lower upper : Int)
  | tooManyTerms (limit : Nat)
  deriving Repr, DecidableEq

namespace SequenceError

def message : SequenceError → String
  | emptyFormula => "The formula cannot be empty."
  | missingIndex => "The formula must contain the variable k."
  | malformed _ => "Syntax error: check that the formula is written correctly."
  | undefinedName _ =>
    "Undefined variable. Remember that \"k\" is the only variable you can use."
  | unbalanced opened closed =>
    s!"Unbalanced parentheses: {opened} opened vs {closed} closed. " ++
      "Check that all parentheses are properly closed."
  | nonFiniteTerm k =>
    s!"Error evaluating the formula for k={k}: the calculation resulted in a non-numeric value."
  | inexactIndex k => s!"Error evaluating the formula for k={k}: k is too large."
  | invalidBounds lower upper =>
    s!"The lower limit ({lower}) cannot be greater than the upper limit ({upper})."
  | tooManyTerms limit => s!"The maximum allowed range is {limit} terms."

end SequenceError

end DiscreteMath.Sequence
