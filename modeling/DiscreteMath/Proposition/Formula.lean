import DiscreteMath.Text.Lexeme

/-!
# Propositional formulas

A formula is a tree of variables, negations and binary connectives. Each node keeps the place of
the lexeme it was read from. A formula has a canonical text and, under a valuation, a truth value.
-/

namespace DiscreteMath.Proposition

open Text (ReadError)

inductive Connective where
  | and | or | xor | implies | iff
  deriving Repr, DecidableEq

namespace Connective

def all : List Connective := [and, or, xor, implies, iff]

def apply : Connective → Bool → Bool → Bool
  | and, a, b => a && b
  | or, a, b => a || b
  | xor, a, b => a != b
  | implies, a, b => !a || b
  | iff, a, b => a == b

def symbol : Connective → String
  | and => "∧"
  | or => "∨"
  | xor => "⊕"
  | implies => "→"
  | iff => "↔"

end Connective

/-- A formula; positions count the characters of the text it was read from. -/
inductive Formula where
  | atom (name : String) (position : Nat)
  | negation (body : Formula) (position : Nat)
  | binary (left : Formula) (connective : Connective) (right : Formula) (position : Nat)
  deriving Repr, DecidableEq

namespace Formula

/-- The canonical text. A binary formula stands in parentheses, and in one more pair below a
negation. -/
def text : Formula → String
  | atom name _ => name
  | negation (binary l c r p) _ => "¬(" ++ text (binary l c r p) ++ ")"
  | negation body _ => "¬" ++ text body
  | binary left c right _ => "(" ++ text left ++ " " ++ c.symbol ++ " " ++ text right ++ ")"

/-- The truth value under a valuation; a variable without a value is an error. -/
def evaluate (valuation : String → Option Bool) : Formula → Except ReadError Bool
  | atom name position =>
    match valuation name with
    | some value => .ok value
    | none => .error (.unknownName name position)
  | negation body _ => do
    let value ← evaluate valuation body
    return !value
  | binary left c right _ => do
    let a ← evaluate valuation left
    let b ← evaluate valuation right
    return c.apply a b

end Formula

end DiscreteMath.Proposition
