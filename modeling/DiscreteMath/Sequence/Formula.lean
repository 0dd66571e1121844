import DiscreteMath.Number.Exact
import DiscreteMath.Number.Notation

/-!
# Formulas of sequences

The term of a sequence is given by an arithmetic formula in the index `k`. Each node keeps the
place of the lexeme it was read from. A formula has a canonical text, with parentheses only where
the binding strengths call for them, and a value at every index.
-/

namespace DiscreteMath.Sequence

inductive Operation where
  | add | sub | mul | div | rem | pow
  deriving Repr, DecidableEq

namespace Operation

def all : List Operation := [add, sub, mul, div, rem, pow]

def symbol : Operation → String
  | add => "+"
  | sub => "-"
  | mul => "*"
  | div => "/"
  | rem => "%"
  | pow => "^"

def precedence : Operation → Nat
  | add | sub => 1
  | mul | div | rem => 2
  | pow => 4

/-- The value of the operation. A remainder has the sign of the dividend. -/
def apply : Operation → Float → Float → Float
  | add, a, b => a + b
  | sub, a, b => a - b
  | mul, a, b => a * b
  | div, a, b => a / b
  | rem, a, b => Number.remainder a b
  | pow, a, b => Float.pow a b

end Operation

inductive Function where
  | sqrt | sin | cos | tan | log | ln
  deriving Repr, DecidableEq

namespace Function

def name : Function → String
  | sqrt => "sqrt"
  | sin => "sin"
  | cos => "cos"
  | tan => "tan"
  | log => "log"
  | ln => "ln"

def ofName? (name : String) : Option Function :=
  [sqrt, sin, cos, tan, log, ln].find? (·.name == name)

/-- The value of the function. Angles are in radians and `log` has base ten. -/
def apply : Function → Float → Float
  | sqrt, x => x.sqrt
  | sin, x => x.sin
  | cos, x => x.cos
  | tan, x => x.tan
  | log, x => x.log10
  | ln, x => x.log

end Function

def indexName : String := "k"

/-- A formula; positions count the characters of the text it was read from. -/
inductive Formula where
  | number (value : Float) (position : Nat)
  | index (position : Nat)
  | negation (body : Formula) (position : Nat)
  | binary (left : Formula) (operation : Operation) (right : Formula) (position : Nat)
  | call (function : Function) (argument : Formula) (position : Nat)

namespace Formula

def evaluate (k : Float) : Formula → Float
  | number value _ => value
  | index _ => k
  | negation body _ => -evaluate k body
  | binary left op right _ => op.apply (evaluate k left) (evaluate k right)
  | call f argument _ => f.apply (evaluate k argument)

def binding : Formula → Nat
  | binary _ op _ _ => op.precedence
  | negation _ _ => 3
  | number _ _ | index _ | call _ _ _ => 5

def enclosed (needed : Bool) (text : String) : String :=
  if needed then "(" ++ text ++ ")" else text

/-- The canonical text. Powers group to the right, all else to the left. -/
def text : Formula → String
  | number value _ => Number.shortest value
  | index _ => indexName
  | negation body _ => "-" ++ enclosed (body.binding < 5) (text body)
  | binary left op right _ =>
    let strength := op.precedence
    let rightmost := op == .pow
    let l := enclosed (if rightmost then left.binding ≤ strength else left.binding < strength)
      (text left)
    let r := enclosed (if rightmost then right.binding < strength else right.binding ≤ strength)
      (text right)
    l ++ " " ++ op.symbol ++ " " ++ r
  | call f argument _ => f.name ++ "(" ++ text argument ++ ")"

end Formula

end DiscreteMath.Sequence
