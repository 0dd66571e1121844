import DiscreteMath.Proofs.Proposition.Cells
import DiscreteMath.Proofs.Proposition.Printing

/-!
# Other ways to write a formula

How the connectives and negations of a formula are spelled does not matter, and neither does the
spacing between its tokens: the formula is the same up to places, and so are the variables and the
results of its table. The columns of the groups keep the spelling.

## Main definitions

* `Writes` — the text consists of spellings of the tokens and of spacing.
* `Respelled` — the second text writes the tokens of the first.
* `SameEnds` — two rows agree outside the columns of the groups.
-/

namespace DiscreteMath.Proposition

open Text

/-- The text consists of spellings of the tokens, with or without spacing around each of them. -/
inductive Writes : List Token → List Char → Prop
  | nil : Writes [] []
  | space {c : Char} {found : List Token} {text : List Char} :
      isSpacing c = true → Writes found text → Writes found (c :: text)
  | token {token : Token} {spelling : List Char} {found : List Token} {text : List Char} :
      Spells token spelling → Writes found text → Writes (token :: found) (spelling ++ text)

/-- The second text has the tokens of the first one, in any spelling and with any spacing. -/
def Respelled (text text' : List Char) : Prop :=
  ∃ found, tokens text = .ok found ∧ Writes (found.map (·.value)) text'

/-! ### Tokens -/

theorem Reads.writes {p : Nat} {text : List Char} {found : List (Placed Token)}
    (reads : Reads p text found) : Writes (found.map (·.value)) text := by
  induction reads using Reads.induction with
  | nil p => exact .nil
  | skip p c text found spacing _ ih => exact .space spacing ih
  | spelled p token spelling text found spells _ _ ih => exact .token spells ih

namespace Writes

variable {found : List Token} {text : List Char}

theorem not_isLetter_head (writes : Writes found text)
    (unnamed : ∀ token ∈ found.head?, token.name? = none) :
    ∀ c ∈ text.head?, isLetter c = false := by
  cases writes with
  | nil => nofun
  | space spacing _ =>
    intro c head
    obtain rfl := Option.some.inj head
    exact isLetter_eq_false_of_isSpacing spacing
  | token spells _ => exact spells.isLetter_head (unnamed _ rfl) _

/-- Where no two names are neighbours, the text is read as these tokens. -/
theorem exists_reads (writes : Writes found text)
    (separate : found.IsChain fun x y => x.name? = none ∨ y.name? = none) (p : Nat) :
    ∃ placed, Reads p text placed ∧ placed.map (·.value) = found := by
  induction writes generalizing p with
  | nil => exact ⟨[], .nil p, rfl⟩
  | space spacing _ ih =>
    obtain ⟨placed, reads, same⟩ := ih separate (p + 1)
    exact ⟨placed, .skip spacing reads, same⟩
  | @token token spelling found text spells writes ih =>
    obtain ⟨neighbour, separate⟩ := List.isChain_cons.mp separate
    obtain ⟨placed, reads, same⟩ := ih separate (p + spelling.length)
    -- A name can only go on with a letter, and the token after it is no name.
    have apart : Apart token text := fun named =>
      writes.not_isLetter_head fun next member => (neighbour next member).resolve_left named
    exact ⟨⟨token, p⟩ :: placed, .of_spells spells apart reads, by rw [List.map_cons, same]⟩

end Writes

theorem exists_split_of_map_eq {others first second : List (Placed Token)} {token : Placed Token}
    (same : others.map (·.value) = (first ++ token :: second).map (·.value)) :
    ∃ front p back, others = front ++ ⟨token.value, p⟩ :: back ∧
      front.map (·.value) = first.map (·.value) ∧ back.map (·.value) = second.map (·.value) := by
  simp only [List.map_append, List.map_cons] at same
  obtain ⟨front, rest, rfl, front_eq, rest_eq⟩ := List.map_eq_append_iff.mp same
  obtain ⟨⟨_, p⟩, back, rfl, rfl, back_eq⟩ := List.map_eq_cons_iff.mp rest_eq
  exact ⟨front, p, back, rfl, front_eq, back_eq⟩

/-- The same tokens at other places derive the same formula at other places. -/
theorem Derives.exists_alike {level : Option Connective} {t : Formula}
    {found others : List (Placed Token)} (derives : Derives level t found)
    (same : others.map (·.value) = found.map (·.value)) :
    ∃ u, Derives level u others ∧ u.bare = t.bare := by
  induction derives generalizing others with
  | name letters p =>
    obtain ⟨⟨_, q⟩, rfl, rfl⟩ := List.map_eq_singleton_iff.mp same
    exact ⟨_, .name letters q, rfl⟩
  | negation p _ ih =>
    obtain ⟨⟨_, q⟩, body, rfl, rfl, body_eq⟩ := List.map_eq_cons_iff.mp same
    obtain ⟨u, derives, alike⟩ := ih body_eq
    exact ⟨_, .negation q derives, congrArg (Formula.negation · 0) alike⟩
  | parentheses p q _ ih =>
    obtain ⟨front, q', back, rfl, front_eq, back_eq⟩ := exists_split_of_map_eq same
    obtain ⟨⟨_, p'⟩, inner, rfl, rfl, inner_eq⟩ := List.map_eq_cons_iff.mp front_eq
    obtain rfl := List.map_eq_nil_iff.mp back_eq
    obtain ⟨u, derives, alike⟩ := ih inner_eq
    exact ⟨u, .parentheses p' q' derives, alike⟩
  | operand _ ih =>
    obtain ⟨u, derives, alike⟩ := ih same
    exact ⟨u, .operand derives, alike⟩
  | left other p _ _ ihLeft ihRight =>
    obtain ⟨front, q, back, rfl, front_eq, back_eq⟩ := exists_split_of_map_eq same
    obtain ⟨l, left, alikeLeft⟩ := ihLeft front_eq
    obtain ⟨r, right, alikeRight⟩ := ihRight back_eq
    exact ⟨_, .left other q left right,
      congrArg₂ (Formula.binary · _ · 0) alikeLeft alikeRight⟩
  | right p _ _ ihLeft ihRight =>
    obtain ⟨front, q, back, rfl, front_eq, back_eq⟩ := exists_split_of_map_eq same
    obtain ⟨l, left, alikeLeft⟩ := ihLeft front_eq
    obtain ⟨r, right, alikeRight⟩ := ihRight back_eq
    exact ⟨_, .right q left right,
      congrArg₂ (Formula.binary · _ · 0) alikeLeft alikeRight⟩

/-- Texts with the same tokens are spellings of each other. -/
theorem respelled_of_tokens {text text' : List Char}
    (same : (tokens text).map (·.map (·.value)) = (tokens text').map (·.map (·.value)))
    (lexed : (tokens text).isOk = true) : Respelled text text' := by
  cases first : tokens text with
  | error e => simp [first, Except.isOk, Except.toBool] at lexed
  | ok found =>
    cases second : tokens text' with
    | error e => simp [first, second, Except.map] at same
    | ok found' =>
      simp only [first, second, Except.map, Except.ok.injEq] at same
      exact ⟨found, first, same ▸ (tokens_eq_ok_iff.mp second).writes⟩

theorem exists_read_of_respelled {text text' : List Char} {t : Formula}
    (read : Formula.read text = .ok t) (respelled : Respelled text text') :
    ∃ u, Formula.read text' = .ok u ∧ u.bare = t.bare := by
  obtain ⟨found, lexed, derives⟩ := read_eq_ok_iff.mp read
  obtain ⟨found', lexed', writes⟩ := respelled
  obtain rfl := Except.ok.inj (lexed.symm.trans lexed')
  have separate : (found.map (·.value)).IsChain fun x y => x.name? = none ∨ y.name? = none :=
    (List.isChain_map _).mpr derives.separate
  obtain ⟨placed, reads, same⟩ := writes.exists_reads separate 1
  obtain ⟨u, derives', alike⟩ := derives.exists_alike same
  exact ⟨u, read_eq_ok_iff.mpr ⟨placed, tokens_eq_ok_iff.mpr reads, derives'⟩, alike⟩

/-! ### Tables -/

/-- Two rows begin with the same variables and their values and end with the same result. -/
def SameEnds (names : List String) (first second : Row) : Prop :=
  ∃ bound groups groups' result, bound.map Prod.fst = names ∧ result.1 = resultLabel ∧
    first.cells = bound ++ groups ++ [result] ∧ second.cells = bound ++ groups' ++ [result]

theorem Formula.holds_eq_of_bare {s t : Formula} (alike : s.bare = t.bare) (v : String → Bool) :
    s.holds v = t.holds v := by
  simpa [bare] using congrArg (holds v) alike

/-- A formula in other spellings and with other spacing is read as the same formula up to places.
Its table has the same variables, and in each row the same result. From 59 variables on there can be
no space for either table. -/
theorem read_respelled {text text' : List Char} {t : Formula} (read : Formula.read text = .ok t)
    (respelled : Respelled text text') :
    ∃ u, Formula.read text' = .ok u ∧ u.bare = t.bare ∧
      (t.names.dedup.length < 59 → ∃ table table', truthTable text = .ok table ∧
        truthTable text' = .ok table' ∧
        List.Forall₂ (SameEnds (variableNames text)) table table') ∧
      (59 ≤ t.names.dedup.length → t.names.dedup.length < 64 →
        truthTable text = .error .capacityOverflow ∧
          truthTable text' = .error .capacityOverflow) := by
  obtain ⟨u, read', alike⟩ := exists_read_of_respelled read respelled
  have names : variableNames text' = variableNames text := variableNames_eq fun name => by
    rw [mem_variableNames read', mem_variableNames read, Formula.names_eq_of_bare alike]
  rw [← length_variableNames read]
  -- Both tables are made of the same number of variables.
  have tables (within : (variableNames text).length < 64) := exists_table read' (by rwa [names])
  rw [names] at tables
  refine ⟨u, read', alike, fun few => ?_, fun many within => ?_⟩
  · obtain ⟨columns, -, made⟩ := exists_table read (by omega)
    obtain ⟨columns', -, made'⟩ := tables (by omega)
    rw [if_neg (by omega)] at made made'
    refine ⟨_, _, made, made', ?_⟩
    rw [List.forall₂_map_left_iff, List.forall₂_map_right_iff, List.forall₂_same]
    intro i _
    refine ⟨valuation (variableNames text) i, columns.map (labelled (variableNames text) i),
      columns'.map (labelled (variableNames text) i),
      (resultLabel, t.holds (truth (variableNames text) i)), fst_valuation _ _, rfl, rfl, ?_⟩
    rw [tableRow, Formula.holds_eq_of_bare alike]
  · obtain ⟨_, -, made⟩ := exists_table read within
    obtain ⟨_, -, made'⟩ := tables within
    exact ⟨made.trans (if_pos many), made'.trans (if_pos many)⟩

/-- The signs are others, and the spacing is in other places. -/
theorem read_respelled_signs :
    ∃ t u table table', Formula.read "!(p&&q) -> (p || ~q)".toList = .ok t ∧
      Respelled "!(p&&q) -> (p || ~q)".toList "¬( p ∧ q )→(p ǀǀ\t˜q)".toList ∧
      Formula.read "¬( p ∧ q )→(p ǀǀ\t˜q)".toList = .ok u ∧ u.bare = t.bare ∧
      truthTable "!(p&&q) -> (p || ~q)".toList = .ok table ∧
      truthTable "¬( p ∧ q )→(p ǀǀ\t˜q)".toList = .ok table' ∧
      List.Forall₂ (SameEnds ["p", "q"]) table table' := by
  have read : Formula.read "!(p&&q) -> (p || ~q)".toList = .ok
      (.binary (.negation (.binary (.atom "p" 3) .and (.atom "q" 6) 4) 1) .implies
        (.binary (.atom "p" 13) .or (.negation (.atom "q" 19) 18) 15) 9) := by
    decide +kernel
  have respelled : Respelled "!(p&&q) -> (p || ~q)".toList "¬( p ∧ q )→(p ǀǀ\t˜q)".toList :=
    respelled_of_tokens (by decide +kernel) (by decide +kernel)
  have names : variableNames "!(p&&q) -> (p || ~q)".toList = ["p", "q"] := by decide +kernel
  obtain ⟨u, read', alike, tables, -⟩ := read_respelled read respelled
  obtain ⟨table, table', made, made', same⟩ := tables (by decide)
  exact ⟨_, u, table, table', read, respelled, read', alike, made, made', names ▸ same⟩

/-- With 59 variables there is no table, however the formula is written. -/
theorem read_respelled_overflow :
    ¬ ∀ text text' t, Formula.read text = .ok t → Respelled text text' →
      t.names.dedup.length < 64 → ∃ table', truthTable text' = .ok table' := by
  intro claim
  have respelled : Respelled (joinedLetters ['∧']) (joinedLetters [' ', '&', '&', ' ']) :=
    respelled_of_tokens (by decide +kernel) (by decide +kernel)
  obtain ⟨t, read, count⟩ := exists_read_joinedLetters
  obtain ⟨table, made⟩ := claim _ _ t read respelled (by omega)
  obtain ⟨u, read', alike⟩ := exists_read_of_respelled read respelled
  have few := length_of_truthTable read' made
  rw [length_variableNames read', Formula.names_eq_of_bare alike] at few
  omega

end DiscreteMath.Proposition
