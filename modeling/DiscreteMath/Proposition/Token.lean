import DiscreteMath.Proposition.Formula

/-!
# Tokens of propositional formulas

A token is a variable, which is a run of letters, a negation mark, a connective in one of its
spellings, or a parenthesis.
-/

namespace DiscreteMath.Proposition

open Text

inductive Token where
  | name (letters : String)
  | negation
  | connective (connective : Connective)
  | opening
  | closing
  deriving Repr, DecidableEq

namespace Token

def text : Token → String
  | name letters => letters
  | negation => "¬"
  | connective c => c.symbol
  | opening => "("
  | closing => ")"

def start? (c : Char) (following : List Char) : Option (Token × Nat) :=
  if isLetter c then
    let more := following.takeWhile isLetter
    some (name (String.ofList (c :: more)), more.length)
  else match c, following with
    | '(', _ => some (opening, 0)
    | ')', _ => some (closing, 0)
    | '¬', _ | '!', _ | '~', _ | '˜', _ => some (negation, 0)
    | '∧', _ => some (connective .and, 0)
    | '&', '&' :: _ => some (connective .and, 1)
    | '∨', _ => some (connective .or, 0)
    | '|', '|' :: _ => some (connective .or, 1)
    | 'ǀ', 'ǀ' :: _ => some (connective .or, 1)
    | '⊕', _ => some (connective .xor, 0)
    | '→', _ | '⇒', _ => some (connective .implies, 0)
    | '-', '>' :: _ => some (connective .implies, 1)
    | '↔', _ => some (connective .iff, 0)
    | _, _ => none

end Token

def tokens (text : List Char) : Except ReadError (List (Placed Token)) :=
  tokensOrStray (pieces isSpacing Token.start? 1 text)

end DiscreteMath.Proposition
