import DiscreteMath.Proofs.Proposition.Grammar
import DiscreteMath.Proofs.Proposition.Lexing
import DiscreteMath.Proofs.Text.Faults

/-!
# Faults of propositional formulas

Where reading stops, no connective goes on with what was read. Where it fails, an operand is due,
and the error tells what stands there instead. The nodes of a formula are tokens of the text, in
order and at their places.

## Main definitions

* `language` — the propositional formulas as a language.
* `Formula.lexemes` — the tokens that the nodes of a formula were read from.
-/

namespace DiscreteMath.Proposition

open Text Text.Parsed

def Formula.lexemes : Formula → List (Placed Token)
  | atom letters p => [⟨.name letters, p⟩]
  | negation body p => ⟨.negation, p⟩ :: lexemes body
  | binary left c right p => lexemes left ++ ⟨.connective c, p⟩ :: lexemes right

namespace Token

def Joins : Token → Prop
  | connective _ => True
  | name _ | negation | opening | closing => False

def Leads : Token → Prop
  | negation | opening => True
  | name _ | connective _ | closing => False

def Begins : Token → Prop
  | name _ | negation | opening => True
  | connective _ | closing => False

end Token

/-- The language of propositional formulas, where every name is a variable. -/
def language : FormulaLanguage Token where
  start? := Token.start?
  text := Token.text
  Spells := Spells
  opening := .opening
  closing := .closing
  name := .name
  Joins := Token.Joins
  Leads := Token.Leads
  Begins := Token.Begins
  Known _ _ := True
  Formula tokens := ∃ t, Derives (some .or) t tokens
  spells_of_start? started := by
    obtain ⟨spelling, split, -, spells, -⟩ := spells_of_start? started
    exact ⟨spelling, spells, spells.ne_nil, split ▸ List.prefix_append spelling _⟩
  eq_of_spells_opening spells := by
    cases spells with
    | sign listed => simpa [signs] using listed
  eq_of_spells_name spells := by
    generalize same : Token.name _ = token at spells
    cases spells with
    | name =>
      cases same
      simp
    | sign listed =>
      subst same
      simp [signs] at listed

/-! ### Nodes -/

theorem Derives.sublist {level : Option Connective} {t : Formula} {used : List (Placed Token)}
    (derives : Derives level t used) : t.lexemes.Sublist used := by
  induction derives with
  | name letters p => exact List.Sublist.refl _
  | negation p _ ih => exact ih.cons_cons _
  | parentheses p q _ ih => exact (ih.trans (List.sublist_append_left _ _)).cons _
  | operand _ ih => exact ih
  | left other p _ _ first second => exact first.append (second.cons_cons _)
  | right p _ _ first second => exact first.append (second.cons_cons _)

/-! ### Where reading stops -/

/-- What is left does not go on with a connective of the level. -/
theorem stops_of_read (stop : Nat) :
    (∀ c tokens t rest, outcome (readLevel stop c tokens) = .ok (t, rest) →
        Stops (some c) rest) ∧
      (∀ c l tokens t rest, Stops c.tighter? tokens →
        outcome (readChain stop c l tokens) = .ok (t, rest) → Stops (some c) rest) ∧
      (∀ c tokens t rest, outcome (readOperand stop c tokens) = .ok (t, rest) →
        Stops c.tighter? rest) ∧
      ∀ tokens t rest, outcome (readUnary stop tokens) = .ok (t, rest) → Stops none rest := by
  apply readLevel.mutual_induct
  case case1 =>
    intro c tokens ihOperand ihChain t rest read
    rw [outcome_readLevel] at read
    obtain ⟨⟨l, others⟩, first, read⟩ := bind_eq_ok read
    obtain ⟨parsed, -, rfl, rfl⟩ := outcome_eq_ok first
    exact ihChain parsed t rest (ihOperand _ _ first) read
  case case2 =>
    intro c l d p tokens other t rest stops read
    rw [outcome_readChain_other stop other] at read
    cases read
    intro d' q others same
    cases same
    have looser := stops d p tokens rfl
    revert other looser
    cases c <;> cases d <;> decide
  case case3 =>
    intro l d p tokens same _ ih t rest _ read
    obtain rfl : d = .implies := Decidable.of_not_not same
    rw [outcome_readChain_implies] at read
    obtain ⟨⟨r, others⟩, second, result⟩ := map_eq_ok read
    cases result
    exact ih r _ second
  case case4 =>
    intro c l d p tokens same other _ ihOperand ihChain t rest _ read
    obtain rfl : d = c := Decidable.of_not_not same
    rw [outcome_readChain_same stop other] at read
    obtain ⟨⟨r, others⟩, second, read⟩ := bind_eq_ok read
    obtain ⟨parsed, -, rfl, rfl⟩ := outcome_eq_ok second
    exact ihChain parsed t rest (ihOperand _ _ second) read
  case case5 =>
    intro c l tokens other t rest _ read
    rw [outcome_readChain_end stop fun d p rest same => other d p rest same] at read
    cases read
    exact fun d p others same => (other d p others same).elim
  case case6 =>
    intro c tokens d tighter _ ih t rest read
    rw [outcome_readOperand, tighter] at read
    rw [tighter]
    exact ih t rest read
  case case7 =>
    intro c tokens tightest _ ih t rest read
    rw [tightest]
    exact stops_none rest
  all_goals
    intros
    exact stops_none _

/-- No connective goes on with a formula that was read. -/
theorem not_joins_of_stops {tokens : List (Placed Token)} (stops : Stops (some .or) tokens) :
    ∀ x ∈ tokens.head?, ¬x.value.Joins := by
  intro x first joins
  obtain ⟨rest, rfl⟩ := List.head?_eq_some_iff.mp first
  obtain ⟨value, p⟩ := x
  cases value with
  | connective d =>
    have looser : 5 < d.rank := stops d p rest rfl
    have := d.rank_le
    omega
  | name | negation | opening | closing => exact joins

/-! ### Where reading fails -/

theorem Derives.isFormula {level : Option Connective} {t : Formula} {used : List (Placed Token)}
    (derives : Derives level t used) : language.Formula used := by
  refine ⟨t, derives.loosen (some .or) ?_⟩
  cases level with
  | none => exact Nat.zero_le _
  | some c => exact c.rank_le

/-- The error of a reader tells what is wrong where an operand is due. -/
theorem blames_of_read (stop : Nat) :
    (∀ c tokens e, outcome (readLevel stop c tokens) = .error e →
        language.Blames stop tokens e) ∧
      (∀ c l tokens before e, Derives (some c) l before →
        (c = .implies → Derives c.tighter? l before) →
        outcome (readChain stop c l tokens) = .error e →
        language.Blames stop (before ++ tokens) e) ∧
      (∀ c tokens e, outcome (readOperand stop c tokens) = .error e →
        language.Blames stop tokens e) ∧
      ∀ tokens e, outcome (readUnary stop tokens) = .error e → language.Blames stop tokens e := by
  apply readLevel.mutual_induct
  case case1 =>
    intro c tokens ihOperand ihChain e failed
    rw [outcome_readLevel] at failed
    rcases bind_eq_error failed with first | ⟨⟨l, others⟩, first, later⟩
    · exact ihOperand e first
    · obtain ⟨used, split, derives⟩ := (derives_of_read stop).2.2.1 _ _ _ _ first
      obtain ⟨parsed, -, rfl, rfl⟩ := outcome_eq_ok first
      rw [split]
      exact ihChain parsed used e (.operand derives) (fun _ => derives) later
  case case2 =>
    intro c l d p tokens other before e _ _ failed
    rw [outcome_readChain_other stop other] at failed
    cases failed
  case case3 =>
    intro l d p tokens same _ ih before e derives _ failed
    obtain rfl : d = .implies := Decidable.of_not_not same
    rw [outcome_readChain_implies] at failed
    exact .joined derives.isFormula trivial (ih e (map_eq_error failed))
  case case4 =>
    intro c l d p tokens same other _ ihOperand ihChain before e derives _ failed
    obtain rfl : d = c := Decidable.of_not_not same
    rw [outcome_readChain_same stop other] at failed
    rcases bind_eq_error failed with second | ⟨⟨r, others⟩, second, later⟩
    · exact .joined derives.isFormula trivial (ihOperand e second)
    · obtain ⟨used, split, operand⟩ := (derives_of_read stop).2.2.1 _ _ _ _ second
      obtain ⟨parsed, -, rfl, rfl⟩ := outcome_eq_ok second
      have blames := ihChain parsed _ e (.left other p derives operand)
        (fun implies => absurd implies other) later
      rw [List.append_assoc, List.cons_append] at blames
      rwa [split]
  case case5 =>
    intro c l tokens other before e _ _ failed
    rw [outcome_readChain_end stop fun d p rest same => other d p rest same] at failed
    cases failed
  case case6 =>
    intro c tokens d tighter _ ih e failed
    rw [outcome_readOperand, tighter] at failed
    exact ih e failed
  case case7 =>
    intro c tokens tightest _ ih e failed
    rw [outcome_readOperand, tightest] at failed
    exact ih e failed
  case case8 =>
    intro e failed
    rw [readUnary] at failed
    cases failed
    exact .missing
  case case9 =>
    intro p tokens ih e failed
    rw [outcome_readUnary_negation] at failed
    exact .leading trivial (ih e (map_eq_error failed))
  case case10 =>
    intro letters p tokens e failed
    rw [outcome_readUnary_name] at failed
    cases failed
  case case11 =>
    intro p tokens ih e failed
    rw [outcome_readUnary_opening] at failed
    rcases bind_eq_error failed with inner | ⟨⟨inner, others⟩, found, later⟩
    · exact .leading trivial (ih e inner)
    · obtain ⟨used, rfl, derives⟩ := (derives_of_read stop).1 _ _ _ _ found
      have joined := not_joins_of_stops ((stops_of_read stop).1 _ _ _ _ found)
      split at later
      next => cases later
      next other =>
        cases later
        refine .unclosed ⟨inner, derives⟩ fun x first => ⟨fun closing => ?_, joined x first⟩
        obtain ⟨rest, rfl⟩ := List.head?_eq_some_iff.mp first
        obtain ⟨value, q⟩ := x
        obtain rfl : value = .closing := closing
        exact other inner q rest rfl
  case case12 =>
    intro token p tokens noNegation noName noOpening e failed
    have begins : ¬token.Begins := by
      cases token with
      | negation => exact absurd rfl noNegation
      | name letters => exact absurd rfl (noName letters)
      | opening => exact absurd rfl noOpening
      | connective | closing => exact id
    have unexpected : readUnary stop (⟨token, p⟩ :: tokens) =
        .error (.unexpected token.text p) := by
      rw [readUnary] <;> simp_all
    rw [unexpected] at failed
    cases failed
    exact .misplaced (x := ⟨token, p⟩) begins

/-! ### Texts -/

/-- An error of the reader names its place in the text, and so does each node that is read. -/
theorem locates_read (text : List Char) :
    language.Locates text Formula.lexemes (Formula.read text) := by
  refine FormulaLanguage.locates_readWhole
    (fun found e level => (blames_of_read _).1 .or found e level) fun found t rest level => ?_
  obtain ⟨used, split, derives⟩ := (derives_of_read _).1 _ _ _ _ level
  exact ⟨used, split, ⟨t, derives⟩, derives.sublist,
    not_joins_of_stops ((stops_of_read _).1 _ _ _ _ level)⟩

end DiscreteMath.Proposition
