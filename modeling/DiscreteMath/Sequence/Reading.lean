import DiscreteMath.Sequence.Token

/-!
# Reading sequence formulas

Sums are made of products, products of signed factors, factors of powers. Sums and products group
to the left. A sign in front of a power covers all of it, and an exponent may carry a sign of its
own, so that `-k^2` is `-(k^2)` and `2^-1` needs no parentheses.
-/

namespace DiscreteMath.Sequence

open Text

/-- The levels on which operations form chains. -/
inductive Level where
  | sum | product
  deriving Repr, DecidableEq

namespace Level

def ofOperation? : Operation → Option Level
  | .add | .sub => some sum
  | .mul | .div | .rem => some product
  | .pow => none

def rank : Level → Nat
  | sum => 2
  | product => 1

theorem rank_le (l : Level) : l.rank ≤ 2 := by cases l <;> decide

end Level

mutual

def readLevel (stop : Nat) (l : Level) (tokens : List (Placed Token)) :
    Except ReadError (Parsed Token Formula tokens.length) := do
  let first ← readOperand stop l tokens
  have := first.shorter
  have := l.rank_le
  let whole ← readChain stop l first.value first.rest
  return whole.within first.shorter
termination_by 16 * tokens.length + 2 * l.rank + 3
decreasing_by all_goals omega

/-- An operand of a level: a product of a sum, a signed factor of a product. -/
def readOperand (stop : Nat) (l : Level) (tokens : List (Placed Token)) :
    Except ReadError (Parsed Token Formula tokens.length) :=
  match l with
  | .sum => readLevel stop .product tokens
  | .product => readUnary stop tokens
termination_by 16 * tokens.length + 2 * l.rank + 2
decreasing_by
  all_goals simp only [Level.rank]
  all_goals omega

def readChain (stop : Nat) (l : Level) (left : Formula) (tokens : List (Placed Token)) :
    Except ReadError (Parsed Token Formula (tokens.length + 1)) :=
  match tokens with
  | ⟨.operation op, position⟩ :: rest =>
    if Level.ofOperation? op = some l then do
      have := l.rank_le
      let right ← readOperand stop l rest
      have := right.shorter
      let whole ← readChain stop l (.binary left op right.value position) right.rest
      return (whole.within right.shorter).widen.widen
    else .ok (.leaving left (⟨.operation op, position⟩ :: rest))
  | rest => .ok (.leaving left rest)
termination_by 16 * tokens.length + 2 * l.rank + 2
decreasing_by
  all_goals simp only [List.length_cons]
  all_goals omega

/-- A factor with any number of signs in front. A plus leaves no trace. -/
def readUnary (stop : Nat) (tokens : List (Placed Token)) :
    Except ReadError (Parsed Token Formula tokens.length) :=
  match tokens with
  | ⟨.operation .sub, position⟩ :: rest => do
    let body ← readUnary stop rest
    return (body.map (.negation · position)).widen
  | ⟨.operation .add, _⟩ :: rest => do
    let body ← readUnary stop rest
    return body.widen
  | rest => readPower stop rest
termination_by 16 * tokens.length + 2
decreasing_by
  · simp only [List.length_cons]
    omega
  · simp only [List.length_cons]
    omega
  · omega

/-- A primary formula, perhaps raised to a signed exponent. -/
def readPower (stop : Nat) (tokens : List (Placed Token)) :
    Except ReadError (Parsed Token Formula tokens.length) := do
  let base ← readPrimary stop tokens
  match base.next? with
  | some (⟨.operation .pow, position⟩, taken) => do
    have := taken.shorter
    let exponent ← readUnary stop taken.rest
    return (exponent.map (.binary base.value .pow · position)).within (Nat.le_of_lt taken.shorter)
  | _ => return base
termination_by 16 * tokens.length + 1
decreasing_by all_goals omega

def readPrimary (stop : Nat) (tokens : List (Placed Token)) :
    Except ReadError (Parsed Token Formula tokens.length) :=
  match tokens with
  | [] => .error (.unexpectedEnd stop)
  | ⟨.number value, position⟩ :: rest => .ok (.leaving (.number value position) rest)
  | ⟨.name letters, position⟩ :: rest =>
    if letters = indexName then .ok (.leaving (.index position) rest)
    else match Function.ofName? letters, rest with
      | some f, ⟨.opening, opened⟩ :: inside => do
        let argument ← readGroup stop opened inside
        return (argument.map (.call f · position)).widen.widen
      | _, _ => .error (.unknownName letters position)
  | ⟨.opening, opened⟩ :: inside => do
    let inner ← readGroup stop opened inside
    return inner.widen
  | ⟨token, position⟩ :: _ => .error (.unexpected token.text position)
termination_by 16 * tokens.length
decreasing_by
  all_goals simp only [List.length_cons]
  all_goals omega

/-- The inside of the parenthesis opened at `opened`, up to its closing one. -/
def readGroup (stop opened : Nat) (tokens : List (Placed Token)) :
    Except ReadError (Parsed Token Formula tokens.length) := do
  let inner ← readLevel stop .sum tokens
  match inner.next? with
  | some (⟨.closing, _⟩, whole) => return whole
  | _ => .error (.unclosed opened)
termination_by 16 * tokens.length + 8
decreasing_by simp only [Level.rank]; omega

end

def Formula.read (text : List Char) : Except ReadError Formula :=
  readWhole Token.text (tokens text) (readLevel (text.length + 1) .sum)

end DiscreteMath.Sequence
