import DiscreteMath.Text.Characters

/-!
# Errors of set algebra

Why a set cannot be stored or an expression has no value.
-/

namespace DiscreteMath.SetAlgebra

inductive LiteralFault where
  | unbalancedBraces (text : String)
  | namelessReference
  deriving Repr, DecidableEq

inductive FormFault where
  | unbalancedParentheses
  | noOperandForComplement
  | noOperandsFor (symbol : String)
  | notOneValue
  deriving Repr, DecidableEq

inductive SetError where
  | emptyName
  | unknownSet (name : String)
  /-- Names in an expression that are not registered, in the order of their first occurrence. -/
  | undefinedSets (names : List String)
  | malformedExpression (fault : FormFault)
  | noUniverse
  | invalidElements (fault : LiteralFault)
  deriving Repr, DecidableEq

namespace LiteralFault

def message : LiteralFault → String
  | unbalancedBraces text => s!"unbalanced braces in '{text}'"
  | namelessReference => "a set reference needs a name after '@'"

end LiteralFault

namespace FormFault

def message : FormFault → String
  | unbalancedParentheses => "unbalanced parentheses"
  | noOperandForComplement => "missing operand for the complement"
  | noOperandsFor symbol => s!"missing operands for {symbol}"
  | notOneValue => "the evaluation did not produce a single value"

end FormFault

namespace SetError

def message : SetError → String
  | emptyName => "The set name cannot be empty."
  | unknownSet name => s!"The set '{name}' does not exist."
  | undefinedSets names => "Undefined sets: " ++ Text.join ", " names ++ "."
  | malformedExpression fault => s!"Invalid expression: {fault.message}."
  | noUniverse => "There is no universal set to compute the complement against."
  | invalidElements fault => s!"Invalid elements: {fault.message}."

end SetError

end DiscreteMath.SetAlgebra
