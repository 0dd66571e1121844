import DiscreteMath.Proofs.Sequence.Grammar
import DiscreteMath.Proofs.Sequence.Spelling
import DiscreteMath.Proofs.Text.Faults

/-!
# Faults of sequence formulas

Where reading stops, no operation goes on with what was read. Where it fails, an operand is due, and
the error tells what stands there instead. The nodes of a formula are tokens of the text, in order
and at their places; parentheses and the plus signs in front of factors leave no node.

## Main definitions

* `language` — the sequence formulas as a language.
* `Formula.lexemes` — the tokens that the nodes of a formula were read from.
-/

namespace DiscreteMath.Sequence

open Text Text.Parsed

def Formula.lexemes : Formula → List (Placed Token)
  | number value p => [⟨.number value, p⟩]
  | index p => [⟨.name indexName, p⟩]
  | negation body p => ⟨.operation .sub, p⟩ :: lexemes body
  | binary left op right p => lexemes left ++ ⟨.operation op, p⟩ :: lexemes right
  | call f argument p => ⟨.name f.name, p⟩ :: lexemes argument

namespace Token

def Joins : Token → Prop
  | operation _ => True
  | number _ | name _ | opening | closing => False

/-- The token stands in front of an operand, or of the argument of a function. -/
def Leads : Token → Prop
  | operation op => op = .add ∨ op = .sub
  | opening => True
  | name letters => ∃ f, Function.ofName? letters = some f
  | number _ | closing => False

def Begins : Token → Prop
  | number _ | name _ | opening => True
  | operation op => op = .add ∨ op = .sub
  | closing => False

end Token

/-- A name is the index, or it is the name of a function and a parenthesis follows. -/
def Known (letters : String) (following : List (Placed Token)) : Prop :=
  letters = indexName ∨
    ∃ f o inside, Function.ofName? letters = some f ∧ following = ⟨.opening, o⟩ :: inside

def language : FormulaLanguage Token where
  start? := Token.start?
  text := Token.text
  Spells := Spells
  opening := .opening
  closing := .closing
  name := .name
  Joins := Token.Joins
  Leads := Token.Leads
  Begins := Token.Begins
  Known := Known
  Formula tokens := ∃ t, Yields .sum t tokens
  spells_of_start? started := by
    obtain ⟨spelling, split, -, spells⟩ := spells_of_start? started
    exact ⟨spelling, spells, spells.ne_nil, split ▸ List.prefix_append spelling _⟩
  eq_of_spells_opening spells := by
    cases spells with
    | sign listed => simpa [signs] using listed
  eq_of_spells_name spells := by
    generalize same : Token.name _ = token at spells
    cases spells with
    | name =>
      cases same
      simp
    | number => cases same
    | sign listed =>
      subst same
      simp [signs] at listed

/-! ### Nodes -/

variable {phrase : Phrase} {t : Formula} {used : List (Placed Token)}

theorem lexemes_grouped (t : Formula) (repetitions : List Repetition) :
    (grouped t repetitions).lexemes = t.lexemes ++ repetitions.flatMap fun next =>
      ⟨.operation next.operation, next.position⟩ :: next.formula.lexemes := by
  induction repetitions generalizing t with
  | nil => simp [grouped]
  | cons next others ih =>
    have later := ih (.binary t next.operation next.formula next.position)
    simpa [grouped, Formula.lexemes] using later

theorem Yields.sublist (yields : Yields phrase t used) : t.lexemes.Sublist used := by
  induction yields with
  | chain production repetitions _ _ _ first operands =>
    rw [lexemes_grouped]
    refine first.append ?_
    clear first
    rw [repeated]
    induction repetitions with
    | nil => exact .slnil
    | cons next others ih =>
      obtain ⟨operand, operands⟩ := List.forall_mem_cons.mp operands
      rw [List.flatMap_cons, List.flatMap_cons]
      exact (operand.cons_cons _).append (ih (by grind) (by grind) operands)
  | minus p _ ih => exact ih.cons_cons _
  | plus p _ ih => exact ih.cons _
  | power _ ih | base _ ih => exact ih
  | exponent p _ _ first second => exact first.append (second.cons_cons _)
  | number | index => exact List.Sublist.refl _
  | call f p o q _ ih =>
    exact ((ih.trans (List.sublist_append_left _ _)).cons _).cons_cons _
  | parentheses p q _ ih => exact (ih.trans (List.sublist_append_left _ _)).cons _

/-! ### Where reading stops -/

theorem stops_primary (tokens : List (Placed Token)) : Stops .primary tokens := by
  intro op p rest _
  cases op <;> decide

/-- What is left does not go on with an operation that belongs to the phrase. -/
theorem stops_of_read (stop : Nat) :
    (∀ l tokens t rest, outcome (readLevel stop l tokens) = .ok (t, rest) →
        Stops l.phrase rest) ∧
      (∀ l left tokens t rest, Stops l.operand tokens →
        outcome (readChain stop l left tokens) = .ok (t, rest) → Stops l.phrase rest) ∧
      (∀ l tokens t rest, outcome (readOperand stop l tokens) = .ok (t, rest) →
        Stops l.operand rest) ∧
      (∀ tokens t rest, outcome (readUnary stop tokens) = .ok (t, rest) → Stops .unary rest) ∧
      (∀ tokens t rest, outcome (readPower stop tokens) = .ok (t, rest) → Stops .power rest) ∧
      (∀ tokens t rest, outcome (readPrimary stop tokens) = .ok (t, rest) →
        Stops .primary rest) ∧
      ∀ opened tokens t rest, outcome (readGroup stop opened tokens) = .ok (t, rest) →
        Stops .primary rest := by
  apply readLevel.mutual_induct
  case case1 =>
    intro l tokens ihOperand ihChain t rest read
    rw [outcome_readLevel] at read
    obtain ⟨⟨s, others⟩, first, read⟩ := bind_eq_ok read
    obtain ⟨parsed, -, rfl, rfl⟩ := outcome_eq_ok first
    rw [← readOperand_eq] at first
    exact ihChain parsed t rest (ihOperand _ _ first) read
  case case2 =>
    intro l left op p tokens listed _ ihOperand ihChain t rest _ read
    rw [outcome_readChain_more stop (Level.mem_operations.mpr listed)] at read
    obtain ⟨⟨s, others⟩, second, read⟩ := bind_eq_ok read
    obtain ⟨parsed, -, rfl, rfl⟩ := outcome_eq_ok second
    rw [← readOperand_eq] at second
    exact ihChain parsed t rest (ihOperand _ _ second) read
  case case3 =>
    intro l left op p tokens other t rest stops read
    rw [outcome_readChain_end stop (by grind [Level.mem_operations])] at read
    cases read
    intro op' q others same
    cases same
    have looser := stops op p tokens rfl
    revert other looser
    cases l <;> cases op <;> decide
  case case4 =>
    intro l left tokens other t rest _ read
    rw [outcome_readChain_end stop fun op p rest same => (other op p rest same).elim] at read
    cases read
    exact fun op p others same => (other op p others same).elim
  case case5 =>
    intro tokens ih t rest read
    rw [readOperand_eq] at read
    exact ih t rest read
  case case6 =>
    intro tokens ih t rest read
    rw [readOperand_eq] at read
    exact ih t rest read
  case case7 =>
    intro p tokens ih t rest read
    rw [outcome_readUnary_minus] at read
    obtain ⟨⟨body, others⟩, inner, result⟩ := map_eq_ok read
    cases result
    exact ih body _ inner
  case case8 =>
    intro p tokens ih t rest read
    rw [outcome_readUnary_plus] at read
    exact ih t rest read
  case case9 =>
    intro tokens noMinus noPlus ih t rest read
    rw [readUnary_power stop noMinus noPlus] at read
    exact ih t rest read
  case case10 =>
    intro tokens ihPrimary ihUnary t rest read
    rw [outcome_readPower] at read
    obtain ⟨⟨base, others⟩, first, read⟩ := bind_eq_ok read
    split at read
    next base' p others' same =>
      cases same
      obtain ⟨⟨exponent, others⟩, second, result⟩ := map_eq_ok read
      cases result
      obtain ⟨parsed, -, -, left⟩ := outcome_eq_ok first
      have shorter := parsed.shorter
      rw [left, List.length_cons] at shorter
      exact ihUnary (⟨base, others', Nat.lt_of_succ_lt shorter⟩) exponent _ second
    next base' others' noPower same =>
      cases same
      cases read
      intro op p rest following
      have other : op ≠ .pow := by
        rintro rfl
        exact noPower p rest following
      revert other
      cases op <;> decide
  all_goals
    intros
    exact stops_primary _

/-- No operation goes on with a formula that was read. -/
theorem not_joins_of_stops {tokens : List (Placed Token)} (stops : Stops .sum tokens) :
    ∀ x ∈ tokens.head?, ¬x.value.Joins := by
  intro x first joins
  obtain ⟨rest, rfl⟩ := List.head?_eq_some_iff.mp first
  obtain ⟨value, p⟩ := x
  cases value with
  | operation op =>
    have looser := stops op p rest rfl
    revert looser
    cases op <;> decide
  | number | name | opening | closing => exact joins

/-! ### Where reading fails -/

theorem Yields.isFormula (yields : Yields phrase t used) : language.Formula used :=
  ⟨t, yields.loosen .sum (by cases phrase <;> decide)⟩

def Unsigned (tokens : List (Placed Token)) : Prop :=
  (∀ p rest, tokens ≠ ⟨.operation .sub, p⟩ :: rest) ∧
    ∀ p rest, tokens ≠ ⟨.operation .add, p⟩ :: rest

/-- The error of a reader tells what is wrong where an operand is due. -/
theorem blames_of_read (stop : Nat) :
    (∀ l tokens e, outcome (readLevel stop l tokens) = .error e →
        language.Blames stop tokens e) ∧
      (∀ l left tokens before e, Yields l.phrase left before →
        outcome (readChain stop l left tokens) = .error e →
        language.Blames stop (before ++ tokens) e) ∧
      (∀ l tokens e, outcome (readOperand stop l tokens) = .error e →
        language.Blames stop tokens e) ∧
      (∀ tokens e, outcome (readUnary stop tokens) = .error e → language.Blames stop tokens e) ∧
      (∀ tokens e, Unsigned tokens → outcome (readPower stop tokens) = .error e →
        language.Blames stop tokens e) ∧
      (∀ tokens e, Unsigned tokens → outcome (readPrimary stop tokens) = .error e →
        language.Blames stop tokens e) ∧
      ∀ opened tokens e, outcome (readGroup stop opened tokens) = .error e →
        language.Blames stop (⟨.opening, opened⟩ :: tokens) e := by
  apply readLevel.mutual_induct
  case case1 =>
    intro l tokens ihOperand ihChain e failed
    rw [outcome_readLevel, ← readOperand_eq] at failed
    rcases bind_eq_error failed with first | ⟨⟨s, others⟩, first, later⟩
    · exact ihOperand e first
    · obtain ⟨used, split, yields⟩ := (yields_of_read stop).2.2.1 _ _ _ _ first
      obtain ⟨parsed, -, rfl, rfl⟩ := outcome_eq_ok first
      rw [split]
      exact ihChain parsed used e (.single l yields) later
  case case2 =>
    intro l left op p tokens listed _ ihOperand ihChain before e yields failed
    have listed := Level.mem_operations.mpr listed
    rw [outcome_readChain_more stop listed, ← readOperand_eq] at failed
    rcases bind_eq_error failed with second | ⟨⟨s, others⟩, second, later⟩
    · exact .joined yields.isFormula trivial (ihOperand e second)
    · obtain ⟨used, split, operand⟩ := (yields_of_read stop).2.2.1 _ _ _ _ second
      obtain ⟨parsed, -, rfl, rfl⟩ := outcome_eq_ok second
      have blames := ihChain parsed _ e (yields.append listed p operand) later
      rw [List.append_assoc, List.cons_append] at blames
      rwa [split]
  case case3 =>
    intro l left op p tokens other before e _ failed
    rw [outcome_readChain_end stop (by grind [Level.mem_operations])] at failed
    cases failed
  case case4 =>
    intro l left tokens other before e _ failed
    rw [outcome_readChain_end stop fun op p rest same => (other op p rest same).elim] at failed
    cases failed
  case case5 =>
    intro tokens ih e failed
    rw [readOperand_eq] at failed
    exact ih e failed
  case case6 =>
    intro tokens ih e failed
    rw [readOperand_eq] at failed
    exact ih e failed
  case case7 =>
    intro p tokens ih e failed
    rw [outcome_readUnary_minus] at failed
    exact .leading (.inr rfl) (ih e (map_eq_error failed))
  case case8 =>
    intro p tokens ih e failed
    rw [outcome_readUnary_plus] at failed
    exact .leading (.inl rfl) (ih e failed)
  case case9 =>
    intro tokens noMinus noPlus ih e failed
    rw [readUnary_power stop noMinus noPlus] at failed
    exact ih e ⟨noMinus, noPlus⟩ failed
  case case10 =>
    intro tokens ihPrimary ihUnary e unsigned failed
    rw [outcome_readPower] at failed
    rcases bind_eq_error failed with first | ⟨⟨base, others⟩, first, later⟩
    · exact ihPrimary e unsigned first
    · split at later
      next base' p others' same =>
        cases same
        obtain ⟨used, split, yields⟩ := (yields_of_read stop).2.2.2.2.2.1 _ _ _ first
        obtain ⟨parsed, -, -, left⟩ := outcome_eq_ok first
        have shorter := parsed.shorter
        rw [left, List.length_cons] at shorter
        rw [split]
        exact .joined yields.isFormula trivial
          (ihUnary (⟨base, others', Nat.lt_of_succ_lt shorter⟩) e (map_eq_error later))
      next => cases later
  case case11 =>
    intro e _ failed
    rw [readPrimary] at failed
    cases failed
    exact .missing
  case case12 =>
    intro x p tokens e _ failed
    rw [outcome_readPrimary_number] at failed
    cases failed
  case case13 =>
    intro p tokens e _ failed
    rw [outcome_readPrimary_index] at failed
    cases failed
  case case14 =>
    intro letters p _ f o tokens named ih e _ failed
    obtain rfl := ofName?_eq_some.mp named
    rw [outcome_readPrimary_call] at failed
    exact .leading ⟨f, named⟩ (ih e (map_eq_error failed))
  case case15 =>
    intro letters p tokens noIndex noCall e _ failed
    rw [outcome_readPrimary_unknown stop noIndex fun f o inside named same =>
      noCall f o inside named same] at failed
    cases failed
    refine .unknown ?_
    rintro (same | ⟨f, o, inside, named, same⟩)
    · exact noIndex same
    · exact noCall f o inside named same
  case case16 =>
    intro o tokens ih e _ failed
    rw [outcome_readPrimary_opening] at failed
    exact ih e failed
  case case17 =>
    intro token p tokens noNumber noName noOpening e unsigned failed
    have begins : ¬token.Begins := by
      cases token with
      | number x => exact absurd rfl (noNumber x)
      | name letters => exact absurd rfl (noName letters)
      | opening => exact absurd rfl noOpening
      | operation op =>
        rintro (rfl | rfl)
        · exact unsigned.2 p tokens rfl
        · exact unsigned.1 p tokens rfl
      | closing => exact id
    have unexpected : readPrimary stop (⟨token, p⟩ :: tokens) =
        .error (.unexpected token.text p) := by
      rw [readPrimary] <;> simp_all
    rw [unexpected] at failed
    cases failed
    exact .misplaced (x := ⟨token, p⟩) begins
  case case18 =>
    intro o tokens ih e failed
    rw [outcome_readGroup] at failed
    rcases bind_eq_error failed with inner | ⟨⟨inner, others⟩, found, later⟩
    · exact .leading trivial (ih e inner)
    · obtain ⟨used, rfl, yields⟩ := (yields_of_read stop).1 _ _ _ _ found
      have joined := not_joins_of_stops ((stops_of_read stop).1 _ _ _ _ found)
      split at later
      next => cases later
      next other =>
        cases later
        refine .unclosed ⟨inner, yields⟩ fun x first => ⟨fun closing => ?_, joined x first⟩
        obtain ⟨rest, rfl⟩ := List.head?_eq_some_iff.mp first
        obtain ⟨value, q⟩ := x
        obtain rfl : value = .closing := closing
        exact other inner q rest rfl

/-! ### Texts -/

/-- An error of the reader names its place in the text, and so does each node that is read. -/
theorem locates_read (text : List Char) :
    language.Locates text Formula.lexemes (Formula.read text) := by
  refine FormulaLanguage.locates_readWhole
    (fun found e level => (blames_of_read _).1 .sum found e level) fun found t rest level => ?_
  obtain ⟨used, split, yields⟩ := (yields_of_read _).1 _ _ _ _ level
  exact ⟨used, split, ⟨t, yields⟩, yields.sublist,
    not_joins_of_stops ((stops_of_read _).1 _ _ _ _ level)⟩

end DiscreteMath.Sequence
