import DiscreteMath.Proposition.Token

/-!
# Reading propositional formulas

The connectives bind in the order `⊕`, `→`, `↔`, `∧`, `∨`, the tightest first, and negation binds
tighter than all of them. Each has a level of its own: an operand of a connective is a formula of
the next tighter level. Implication groups to the right, the others to the left.
-/

namespace DiscreteMath.Proposition

open Text

namespace Connective

def tighter? : Connective → Option Connective
  | or => some and
  | and => some iff
  | iff => some implies
  | implies => some xor
  | xor => none

/-- How many connectives bind at least as tightly. -/
def rank : Connective → Nat
  | or => 5
  | and => 4
  | iff => 3
  | implies => 2
  | xor => 1

theorem rank_le (c : Connective) : c.rank ≤ 5 := by cases c <;> decide

theorem rank_pos (c : Connective) : 0 < c.rank := by cases c <;> decide

theorem rank_tighter {c d : Connective} (h : c.tighter? = some d) : d.rank < c.rank := by
  cases c <;> cases h <;> decide

end Connective

mutual

def readLevel (stop : Nat) (c : Connective) (tokens : List (Placed Token)) :
    Except ReadError (Parsed Token Formula tokens.length) := do
  let first ← readOperand stop c tokens
  have := first.shorter
  have := c.rank_le
  have := c.rank_pos
  let whole ← readChain stop c first.value first.rest
  return whole.within first.shorter
termination_by 16 * tokens.length + 2 * c.rank + 1
decreasing_by all_goals omega

def readOperand (stop : Nat) (c : Connective) (tokens : List (Placed Token)) :
    Except ReadError (Parsed Token Formula tokens.length) :=
  match h : c.tighter? with
  | some d =>
    have := Connective.rank_tighter h
    readLevel stop d tokens
  | none =>
    have := c.rank_pos
    readUnary stop tokens
termination_by 16 * tokens.length + 2 * c.rank
decreasing_by all_goals omega

/-- What follows the formula `left` on the level of `c`. -/
def readChain (stop : Nat) (c : Connective) (left : Formula) (tokens : List (Placed Token)) :
    Except ReadError (Parsed Token Formula (tokens.length + 1)) :=
  match tokens with
  | ⟨.connective d, position⟩ :: rest =>
    if d ≠ c then .ok (.leaving left (⟨.connective d, position⟩ :: rest))
    else if c = .implies then do
      have := c.rank_le
      let right ← readLevel stop c rest
      return (right.map (.binary left c · position)).widen.widen
    else do
      have := c.rank_le
      let right ← readOperand stop c rest
      have := right.shorter
      let whole ← readChain stop c (.binary left c right.value position) right.rest
      return (whole.within right.shorter).widen.widen
  | rest => .ok (.leaving left rest)
termination_by 16 * tokens.length + 2 * c.rank
decreasing_by
  all_goals simp only [List.length_cons]
  all_goals omega

/-- Negations of a variable or of a formula in parentheses. -/
def readUnary (stop : Nat) (tokens : List (Placed Token)) :
    Except ReadError (Parsed Token Formula tokens.length) :=
  match tokens with
  | [] => .error (.unexpectedEnd stop)
  | ⟨.negation, position⟩ :: rest => do
    let body ← readUnary stop rest
    return (body.map (.negation · position)).widen
  | ⟨.name letters, position⟩ :: rest => .ok (.leaving (.atom letters position) rest)
  | ⟨.opening, position⟩ :: rest => do
    let inner ← readLevel stop .or rest
    match inner.next? with
    | some (⟨.closing, _⟩, whole) => return whole.widen
    | _ => .error (.unclosed position)
  | ⟨token, position⟩ :: _ => .error (.unexpected token.text position)
termination_by 16 * tokens.length
decreasing_by
  all_goals simp only [List.length_cons, Connective.rank]
  all_goals omega

end

def Formula.read (text : List Char) : Except ReadError Formula :=
  readWhole Token.text (tokens text) (readLevel (text.length + 1) .or)

end DiscreteMath.Proposition
