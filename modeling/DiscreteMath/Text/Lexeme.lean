import DiscreteMath.Text.Characters

/-!
# Lexemes and their places

A text is cut into lexemes from left to right. What a lexeme is, is given by a function that looks
at a character and at what follows it: `some (t, n)` says that the token `t` begins there and takes
`n` more characters. A character that begins none is a stray.
-/

namespace DiscreteMath.Text

/-- A value with the place of its first character, counted in characters from 1. -/
structure Placed (α : Type) where
  value : α
  position : Nat
  deriving Repr, DecidableEq

inductive Piece (α : Type) where
  | token (value : α)
  | stray (character : Char)
  deriving Repr, DecidableEq

/-- The pieces of a text that starts at `position`, without the characters to be skipped. -/
def pieces (skipped : Char → Bool) (start? : Char → List Char → Option (α × Nat)) (position : Nat) :
    List Char → List (Placed (Piece α))
  | [] => []
  | c :: rest =>
    if skipped c then pieces skipped start? (position + 1) rest
    else match start? c rest with
      | some (token, more) =>
        ⟨.token token, position⟩ :: pieces skipped start? (position + 1 + more) (rest.drop more)
      | none => ⟨.stray c, position⟩ :: pieces skipped start? (position + 1) rest
termination_by text => text.length

inductive ReadError where
  /-- A character or a token that cannot stand where it stands. -/
  | unexpected (found : String) (position : Nat)
  /-- The text ends where an operand is due. -/
  | unexpectedEnd (position : Nat)
  /-- The parenthesis opened at `position` is not closed where its content ends. -/
  | unclosed (position : Nat)
  /-- A name that means nothing. -/
  | unknownName (name : String) (position : Nat)
  deriving Repr, DecidableEq

namespace ReadError

def position : ReadError → Nat
  | unexpected _ p | unexpectedEnd p | unclosed p | unknownName _ p => p

def message : ReadError → String
  | unexpected found p => s!"Unexpected token '{found}' at position {p}."
  | unexpectedEnd p => s!"Unexpected end of input at position {p}."
  | unclosed p => s!"Expected closing parenthesis ')' for the '(' at position {p}."
  | unknownName name p => s!"'{name}' is not defined (position {p})."

end ReadError

/-- The tokens among the pieces; the first stray is an error. -/
def tokensOrStray : List (Placed (Piece α)) → Except ReadError (List (Placed α))
  | [] => .ok []
  | ⟨.token t, p⟩ :: rest => (tokensOrStray rest).map (⟨t, p⟩ :: ·)
  | ⟨.stray c, p⟩ :: _ => .error (.unexpected (String.singleton c) p)

/-- A value read from the front of a list of tokens; fewer than `limit` tokens are left. -/
structure Parsed (τ α : Type) (limit : Nat) where
  value : α
  rest : List (Placed τ)
  shorter : rest.length < limit

namespace Parsed

variable {τ α β : Type} {m n : Nat}

def leaving (value : α) (rest : List (Placed τ)) : Parsed τ α (rest.length + 1) :=
  ⟨value, rest, Nat.lt_succ_self _⟩

def map (f : α → β) (p : Parsed τ α n) : Parsed τ β n := ⟨f p.value, p.rest, p.shorter⟩

/-- Counted from further ahead. -/
def within (p : Parsed τ α m) (h : m ≤ n) : Parsed τ α n :=
  ⟨p.value, p.rest, Nat.lt_of_lt_of_le p.shorter h⟩

def widen (p : Parsed τ α n) : Parsed τ α (n + 1) := p.within (Nat.le_succ n)

/-- The next token, if there is one, and the same value with that token read too. -/
def next? : Parsed τ α n → Option (Placed τ × Parsed τ α n)
  | ⟨_, [], _⟩ => none
  | ⟨value, token :: rest, shorter⟩ => some (token, ⟨value, rest, Nat.lt_of_succ_lt shorter⟩)

end Parsed

/-- What all the tokens are read as together. A token that is left over is an error. -/
def readWhole {τ α : Type} (text : τ → String) (tokens : Except ReadError (List (Placed τ)))
    (read : (found : List (Placed τ)) → Except ReadError (Parsed τ α found.length)) :
    Except ReadError α := do
  let found ← tokens
  let whole ← read found
  match whole.rest with
  | [] => return whole.value
  | ⟨token, position⟩ :: _ => .error (.unexpected (text token) position)

end DiscreteMath.Text
