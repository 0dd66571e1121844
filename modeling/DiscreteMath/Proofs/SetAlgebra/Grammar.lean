import DiscreteMath.Proofs.SetAlgebra.Term

/-!
# The grammar of set expressions

The grammar without binding strengths:

* `operand := name | ( expression ) | operand ᶜ`
* `expression := operand | expression operation operand`

It derives exactly the texts of terms: the binding strengths only say which of the terms is meant.

## Main definitions

* `Phrase.Derives` — the tokens are a phrase of the grammar.
* `inPlace` — operands begin where they are due.
-/

namespace DiscreteMath.SetAlgebra

inductive Phrase where
  | operand | expression

inductive Phrase.Derives : Phrase → List Token → Prop
  | name (letter : String) : Derives .operand [.name letter]
  | parentheses {inner : List Token} : Derives .expression inner →
      Derives .operand (.opening :: inner ++ [.closing])
  | complement {tokens : List Token} : Derives .operand tokens →
      Derives .operand (tokens ++ [.operation .complement])
  | operand {tokens : List Token} : Derives .operand tokens → Derives .expression tokens
  | binary {op : Operation} (proper : op ≠ .complement) {left right : List Token} :
      Derives .expression left → Derives .operand right →
      Derives .expression (left ++ .operation op :: right)

open Phrase

theorem Operation.precedence_lt_complement {op : Operation} (proper : op ≠ .complement) :
    op.precedence < complement.precedence := by
  cases op <;> simp_all [precedence]

theorem Operation.precedence_pos (op : Operation) : 1 ≤ op.precedence := by
  cases op <;> decide

namespace Term

variable {level : Nat} {t u : Term} {tokens left right : List Token}

theorem Written.loosen {level' : Nat} (written : t.Written level' tokens) (le : level ≤ level') :
    t.Written level tokens := by
  cases written with
  | name => exact .name _ _
  | parentheses _ inner => exact .parentheses _ inner
  | complement strong inner => exact .complement (by omega) inner
  | binary joins proper strong first second => exact .binary joins proper (by omega) first second

/-- An operation and an operand behind a term: the operation takes as its left side what binds at
least as tightly at the end of the term. -/
theorem Written.extend {op : Operation} (proper : op ≠ .complement)
    (first : t.Written level left) (loose : level ≤ op.precedence)
    (second : u.Written Operation.complement.precedence right) :
    ∃ v : Term, v.Written level (left ++ .operation op :: right) := by
  have tighter := Operation.precedence_lt_complement proper
  -- The operation takes the whole term if that may stand to its left.
  have whole {t : Term} {left : List Token} (first : t.Written op.precedence left)
      {level : Nat} (loose : level ≤ op.precedence) :
      ∃ v : Term, v.Written level (left ++ .operation op :: right) :=
    ⟨_, .binary (joins_precedence proper) proper loose first (second.loosen (by omega))⟩
  induction first with
  | name level letter => exact whole (.name _ letter) loose
  | parentheses level inner => exact whole (.parentheses _ inner) loose
  | complement strong inner => exact whole (.complement (Nat.le_of_lt tighter) inner) loose
  | @binary level own _ joins proper' _ _ _ _ strong writtenFirst writtenLast _ ih =>
    by_cases tight : op.precedence ≤ own
    · exact whole (.binary joins proper' tight writtenFirst writtenLast) loose
    · obtain ⟨v, written⟩ := ih (by omega)
      have extended := Written.binary joins proper' strong writtenFirst written
      rw [← List.cons_append, ← List.append_assoc] at extended
      exact ⟨_, extended⟩

end Term

/-- An operation between two expressions gives an expression. -/
theorem Phrase.Derives.join {op : Operation} (proper : op ≠ .complement) {left right : List Token}
    (first : Derives .expression left) (second : Derives .expression right) :
    Derives .expression (left ++ .operation op :: right) := by
  generalize same : Phrase.expression = phrase at second
  induction second with
  | name | parentheses | complement => cases same
  | operand inner => exact .binary proper first inner
  | binary proper' _ last ih =>
    have joined := (ih same).binary proper' last
    rwa [List.append_assoc] at joined

/-- The texts of terms are expressions, and operands if no operation stands outside. -/
theorem Term.Written.derives {level : Nat} {t : Term} {tokens : List Token}
    (written : t.Written level tokens) :
    Derives .expression tokens ∧
      (Operation.complement.precedence ≤ level → Derives .operand tokens) := by
  induction written with
  | name level letter => exact ⟨.operand (.name letter), fun _ => .name letter⟩
  | parentheses level _ ih => exact ⟨.operand (.parentheses ih.1), fun _ => .parentheses ih.1⟩
  | complement _ _ ih =>
    have inner := ih.2 (Nat.le_refl _)
    exact ⟨.operand inner.complement, fun _ => inner.complement⟩
  | binary joins proper loose _ _ ihLeft ihRight =>
    refine ⟨ihLeft.1.join proper ihRight.1, fun tight => ?_⟩
    have := Operation.precedence_lt_complement proper
    have := joins.eq_precedence
    omega

/-- How loosely a phrase may bind outside of parentheses. -/
def Phrase.level : Phrase → Nat
  | operand => Operation.complement.precedence
  | expression => 1

/-- Every phrase is the text of a term. -/
theorem Phrase.Derives.written {phrase : Phrase} {tokens : List Token}
    (derives : phrase.Derives tokens) : ∃ t : Term, t.Written phrase.level tokens := by
  induction derives with
  | name letter => exact ⟨.name letter, .name _ letter⟩
  | parentheses _ ih =>
    obtain ⟨t, inner⟩ := ih
    exact ⟨t, .parentheses _ inner⟩
  | complement _ ih =>
    obtain ⟨t, inner⟩ := ih
    exact ⟨.complement t, .complement (Nat.le_refl _) inner⟩
  | operand _ ih =>
    obtain ⟨t, inner⟩ := ih
    exact ⟨t, inner.loosen (by decide)⟩
  | @binary op proper _ _ _ _ ihLeft ihRight =>
    obtain ⟨t, first⟩ := ihLeft
    obtain ⟨u, second⟩ := ihRight
    exact first.extend proper op.precedence_pos second

/-- The grammar derives the texts of terms. -/
theorem derives_iff_written (tokens : List Token) :
    Derives .expression tokens ↔ ∃ t : Term, t.Written 1 tokens :=
  ⟨fun derives => derives.written, fun ⟨_, written⟩ => written.derives.1⟩

/-! ### Where tokens stand -/

namespace Token

def begins : Token → Bool
  | name _ | opening => true
  | _ => false

def ends : Token → Bool
  | name _ | closing => true
  | operation op => op = .complement
  | _ => false

end Token

/-- The tokens begin an operand where one is due, and nowhere else. -/
def inPlace (due : Bool) : List Token → Bool
  | [] => !due
  | token :: rest => token.begins == due && inPlace (!token.ends) rest

/-- Where an operand is due there may be a phrase, and then none is due. -/
theorem Phrase.Derives.inPlace_append {phrase : Phrase} {tokens : List Token}
    (derives : phrase.Derives tokens) (rest : List Token) :
    inPlace true (tokens ++ rest) = inPlace false rest := by
  induction derives generalizing rest with
  | name letter => simp [inPlace, Token.begins, Token.ends]
  | parentheses _ ih => simp [inPlace, Token.begins, Token.ends, ih]
  | complement _ ih => simp [inPlace, Token.begins, Token.ends, ih]
  | operand _ ih => exact ih rest
  | binary proper _ _ ihLeft ihRight =>
    simp [inPlace, Token.begins, Token.ends, ihLeft, ihRight, proper]

theorem Phrase.Derives.inPlace {phrase : Phrase} {tokens : List Token}
    (derives : phrase.Derives tokens) : inPlace true tokens = true := by
  simpa [SetAlgebra.inPlace] using derives.inPlace_append []

end DiscreteMath.SetAlgebra
