import DiscreteMath.SetAlgebra.Error
import DiscreteMath.SetAlgebra.Token

/-!
# Postfix order

In postfix order an operation follows its operands. A complement is written behind its operand
already and stays there. Any other operation waits on a stack until one that binds less tightly,
a closing parenthesis or the end of the expression comes. What is no part of the language is
skipped.
-/

namespace DiscreteMath.SetAlgebra

inductive Instruction where
  | push (name : String)
  | apply (operation : Operation)
  deriving Repr, DecidableEq

def Instruction.text : Instruction → String
  | push name => name
  | apply op => op.symbol

inductive Waiting where
  | operation (operation : Operation)
  | parenthesis
  deriving Repr, DecidableEq

namespace Waiting

/-- The operations at the top that bind at least as tightly as `op`, and what is left below. -/
def release (op : Operation) : List Waiting → List Instruction × List Waiting
  | operation top :: below =>
    if op.precedence ≤ top.precedence then
      let (released, left) := release op below
      (.apply top :: released, left)
    else ([], operation top :: below)
  | stack => ([], stack)

/-- The operations above the last open parenthesis, and what is left below it. -/
def close? : List Waiting → Option (List Instruction × List Waiting)
  | [] => none
  | parenthesis :: below => some ([], below)
  | operation top :: below =>
    (close? below).map fun (released, left) => (.apply top :: released, left)

/-- All operations, if no parenthesis is open. -/
def finish? : List Waiting → Option (List Instruction)
  | [] => some []
  | parenthesis :: _ => none
  | operation top :: below => (finish? below).map (.apply top :: ·)

end Waiting

/-- The instructions for the tokens that follow, with a stack of what waits. There are none if the
parentheses are unbalanced. -/
def postfixFrom? (stack : List Waiting) : List Token → Option (List Instruction)
  | [] => Waiting.finish? stack
  | .name letter :: rest => (postfixFrom? stack rest).map (.push letter :: ·)
  | .opening :: rest => postfixFrom? (.parenthesis :: stack) rest
  | .closing :: rest =>
    match Waiting.close? stack with
    | some (released, left) => (postfixFrom? left rest).map (released ++ ·)
    | none => none
  | .operation op :: rest =>
    if op = .complement then (postfixFrom? stack rest).map (.apply .complement :: ·)
    else
      let (released, left) := Waiting.release op stack
      (postfixFrom? (.operation op :: left) rest).map (released ++ ·)
  | .unknown _ :: rest | .spacing :: rest => postfixFrom? stack rest

def toPostfix (tokens : List Token) : Except SetError (List Instruction) :=
  match postfixFrom? [] tokens with
  | some instructions => .ok instructions
  | none => .error (.malformedExpression .unbalancedParentheses)

end DiscreteMath.SetAlgebra
