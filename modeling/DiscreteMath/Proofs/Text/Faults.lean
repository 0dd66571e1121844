import DiscreteMath.Proofs.Text.Places

/-!
# Faults of formulas

Two languages of formulas are read: operands are joined by connectives, may have signs in front, and
may stand in parentheses. Whatever is wrong with a text, the error names a character of it, or the
place behind the last one where an operand is missing.

## Main definitions

* `FormulaLanguage` — the tokens of a language, and what may stand behind what.
* `FormulaLanguage.Fault` — what is wrong with a text, and the error that says so.
* `FormulaLanguage.Shows` — what stands in the text at the place that an error names.
-/

namespace DiscreteMath.Text

open Parsed

/-- The tokens of a language of formulas, and what may stand behind what. -/
structure FormulaLanguage (τ : Type) where
  start? : Char → List Char → Option (τ × Nat)
  /-- The canonical spelling. -/
  text : τ → String
  /-- The characters spell the token. -/
  Spells : τ → List Char → Prop
  opening : τ
  closing : τ
  name : String → τ
  /-- The token joins two operands. -/
  Joins : τ → Prop
  /-- The token stands in front of an operand. -/
  Leads : τ → Prop
  /-- An operand may begin with the token. -/
  Begins : τ → Prop
  /-- The name means something if these tokens follow it. -/
  Known : String → List (Placed τ) → Prop
  /-- The tokens are a formula. -/
  Formula : List (Placed τ) → Prop
  spells_of_start? {c : Char} {rest : List Char} {token : τ} {more : Nat} :
    start? c rest = some (token, more) →
      ∃ spelling, Spells token spelling ∧ spelling ≠ [] ∧ spelling <+: c :: rest
  eq_of_spells_opening {spelling : List Char} : Spells opening spelling → spelling = ['(']
  eq_of_spells_name {letters : String} {spelling : List Char} :
    Spells (name letters) spelling → spelling = letters.toList

namespace FormulaLanguage

variable {τ : Type} (L : FormulaLanguage τ)

def pieces (text : List Char) : List (Placed (Piece τ)) := Text.pieces isSpacing L.start? 1 text

def tokens (text : List Char) : Except ReadError (List (Placed τ)) := tokensOrStray (L.pieces text)

/-- Where an operand is due in front of the tokens, the error says what is wrong. -/
inductive Blames (stop : Nat) : List (Placed τ) → ReadError → Prop
  /-- Nothing is left. -/
  | missing : Blames stop [] (.unexpectedEnd stop)
  /-- The next token begins no operand. -/
  | misplaced {x : Placed τ} {rest : List (Placed τ)} : ¬L.Begins x.value →
      Blames stop (x :: rest) (.unexpected (L.text x.value) x.position)
  /-- The next token is a name that means nothing there. -/
  | unknown {letters : String} {p : Nat} {rest : List (Placed τ)} : ¬L.Known letters rest →
      Blames stop (⟨L.name letters, p⟩ :: rest) (.unknownName letters p)
  /-- Behind a parenthesis and the whole formula in it, no closing parenthesis follows. -/
  | unclosed {p : Nat} {inner rest : List (Placed τ)} : L.Formula inner →
      (∀ x ∈ rest.head?, x.value ≠ L.closing ∧ ¬L.Joins x.value) →
      Blames stop (⟨L.opening, p⟩ :: (inner ++ rest)) (.unclosed p)
  /-- The operand behind the first token is at fault. -/
  | leading {x : Placed τ} {rest : List (Placed τ)} {e : ReadError} : L.Leads x.value →
      Blames stop rest e → Blames stop (x :: rest) e
  /-- The operand that is joined to a formula is at fault. -/
  | joined {before rest : List (Placed τ)} {x : Placed τ} {e : ReadError} : L.Formula before →
      L.Joins x.value → Blames stop rest e → Blames stop (before ++ x :: rest) e

/-- What is wrong with a text, and the error that says so. -/
inductive Fault (text : List Char) : ReadError → Prop
  /-- Behind some tokens there is a character that begins none. -/
  | stray {found : List (Placed τ)} {c : Char} {p : Nat} {others : List (Placed (Piece τ))} :
      L.pieces text = found.map Placed.piece ++ ⟨.stray c, p⟩ :: others →
      Fault text (.unexpected (String.singleton c) p)
  /-- The operand that is due at the front is at fault. -/
  | operand {found : List (Placed τ)} {e : ReadError} : L.tokens text = .ok found →
      L.Blames (text.length + 1) found e → Fault text e
  /-- Behind a whole formula there is a token that does not go on with it. -/
  | surplus {before after : List (Placed τ)} {x : Placed τ} :
      L.tokens text = .ok (before ++ x :: after) → L.Formula before → ¬L.Joins x.value →
      Fault text (.unexpected (L.text x.value) x.position)

/-- What stands in the text at the place that the error names: a character that is no token or the
spelling of the token that the error tells, the parenthesis left open, or the unknown name. Behind
the last character, an operand is missing. -/
def Shows (text : List Char) : ReadError → Prop
  | .unexpected told p => (∃ c, told = String.singleton c ∧ StandsAt text p [c]) ∨
      ∃ token spelling, told = L.text token ∧ L.Spells token spelling ∧ StandsAt text p spelling
  | .unexpectedEnd p => p = text.length + 1
  | .unclosed p => StandsAt text p ['(']
  | .unknownName letters p => StandsAt text p letters.toList

/-- A reader of the language finds its way in the text: an error names a place in it and what is
wrong there, and the tokens that the nodes of a formula were read from stand in the text at the
places of the nodes. -/
structure Locates {α : Type} (text : List Char) (nodes : α → List (Placed τ))
    (result : Except ReadError α) : Prop where
  of_error : ∀ e, result = .error e → L.Fault text e ∧ L.Shows text e ∧
    1 ≤ e.position ∧ e.position ≤ text.length + 1 ∧
    (e.position = text.length + 1 ↔ ∃ p, e = .unexpectedEnd p)
  of_ok : ∀ t, result = .ok t → ∃ found, L.tokens text = .ok found ∧
    (nodes t).Sublist found ∧
    ∀ x ∈ found, ∃ spelling, L.Spells x.value spelling ∧ StandsAt text x.position spelling

variable {L} {text : List Char} {e : ReadError}

theorem exists_spelling {x : Placed τ} (member : x.piece ∈ L.pieces text) :
    ∃ spelling, L.Spells x.value spelling ∧ StandsAt text x.position spelling := by
  obtain ⟨before, c, following, rfl, place, -, more, started⟩ := exists_of_mem_pieces member
  obtain ⟨spelling, spells, some, after, split⟩ := L.spells_of_start? started
  have stands := standsAt_append before some after
  rw [List.append_assoc, split] at stands
  exact ⟨spelling, spells, place ▸ stands⟩

theorem exists_spelling_of_tokens {found : List (Placed τ)} (read : L.tokens text = .ok found)
    {x : Placed τ} (member : x ∈ found) :
    ∃ spelling, L.Spells x.value spelling ∧ StandsAt text x.position spelling := by
  refine exists_spelling ?_
  rw [eq_map_of_tokensOrStray read]
  exact List.mem_map_of_mem member

theorem Blames.shows {stop : Nat} {found : List (Placed τ)} (blames : L.Blames stop found e)
    (last : stop = text.length + 1)
    (spelled : ∀ x ∈ found, ∃ spelling, L.Spells x.value spelling ∧
      StandsAt text x.position spelling) : L.Shows text e := by
  induction blames with
  | missing => exact last
  | @misplaced x rest other =>
    obtain ⟨spelling, spells, stands⟩ := spelled x List.mem_cons_self
    exact .inr ⟨x.value, spelling, rfl, spells, stands⟩
  | unknown =>
    obtain ⟨spelling, spells, stands⟩ := spelled _ List.mem_cons_self
    rwa [L.eq_of_spells_name spells] at stands
  | unclosed =>
    obtain ⟨spelling, spells, stands⟩ := spelled _ List.mem_cons_self
    rwa [L.eq_of_spells_opening spells] at stands
  | leading _ _ ih => exact ih fun x member => spelled x (List.mem_cons_of_mem _ member)
  | joined _ _ _ ih =>
    exact ih fun x member => spelled x (List.mem_append_right _ (List.mem_cons_of_mem _ member))

theorem Fault.shows (fault : L.Fault text e) : L.Shows text e := by
  cases fault with
  | @stray found c p others split =>
    have member : (⟨.stray c, p⟩ : Placed (Piece τ)) ∈ L.pieces text := by
      rw [split]
      exact List.mem_append_right _ List.mem_cons_self
    obtain ⟨before, d, following, rfl, place, -, rfl, -⟩ := exists_of_mem_pieces member
    have stands := standsAt_append before (List.cons_ne_nil c []) following
    rw [List.append_assoc, List.singleton_append, ← place] at stands
    exact .inl ⟨c, rfl, stands⟩
  | operand read blames =>
    exact blames.shows rfl fun x member => exists_spelling_of_tokens read member
  | @surplus before after x read =>
    obtain ⟨spelling, spells, stands⟩ :=
      exists_spelling_of_tokens read (List.mem_append_right before List.mem_cons_self)
    exact .inr ⟨x.value, spelling, rfl, spells, stands⟩

/-- An error names a place in the text, and the one behind it only if the text ends too early. -/
theorem Shows.position (shows' : L.Shows text e) :
    1 ≤ e.position ∧ e.position ≤ text.length + 1 ∧
      (e.position = text.length + 1 ↔ ∃ p, e = .unexpectedEnd p) := by
  have inside {p : Nat} {lexeme : List Char} (stands : StandsAt text p lexeme)
      (other : ∀ q, e ≠ .unexpectedEnd q) (place : e.position = p) :
      1 ≤ e.position ∧ e.position ≤ text.length + 1 ∧
        (e.position = text.length + 1 ↔ ∃ q, e = .unexpectedEnd q) := by
    have := stands.one_le
    have := stands.le_length
    refine ⟨by omega, by omega, fun last => ?_, fun ⟨q, same⟩ => absurd same (other q)⟩
    omega
  cases e with
  | unexpected told p =>
    rcases shows' with ⟨c, -, stands⟩ | ⟨token, spelling, -, -, stands⟩
    · exact inside stands nofun rfl
    · exact inside stands nofun rfl
  | unexpectedEnd p =>
    obtain rfl : p = text.length + 1 := shows'
    exact ⟨Nat.le_add_left 1 _, Nat.le_refl _, fun _ => ⟨_, rfl⟩, fun _ => rfl⟩
  | unclosed p => exact inside shows' nofun rfl
  | unknownName letters p => exact inside shows' nofun rfl

section Reader

variable {α : Type} {nodes : α → List (Placed τ)}
  {read : (found : List (Placed τ)) → Except ReadError (Parsed τ α found.length)}

/-- A text that is not read whole has a stray or lacks an operand, or a token is left over behind a
formula. -/
theorem fault_of_readWhole
    (blames : ∀ found e, outcome (read found) = .error e → L.Blames (text.length + 1) found e)
    (stops : ∀ found t rest, outcome (read found) = .ok (t, rest) → ∃ used, found = used ++ rest ∧
      L.Formula used ∧ (nodes t).Sublist used ∧ ∀ x ∈ rest.head?, ¬L.Joins x.value)
    (failed : readWhole L.text (L.tokens text) read = .error e) : L.Fault text e := by
  rcases readWhole_eq_error failed with lexing | ⟨found, lexed, level | ⟨t, x, rest, level, rfl⟩⟩
  · rcases tokensOrStray_cases (L.pieces text) with ⟨_, lexed, -⟩ | ⟨_, _, _, _, stray, split⟩
    · exact absurd (lexing.symm.trans lexed) nofun
    · obtain rfl := Except.error.inj (lexing.symm.trans stray)
      exact .stray split
  · exact .operand lexed (blames found e level)
  · obtain ⟨used, rfl, formula, -, other⟩ := stops found t _ level
    exact .surplus lexed formula (other x rfl)

/-- A reader finds its way in the text if it fails where an operand is due, and stops behind a
formula that nothing joins, the nodes of which are tokens in order. -/
theorem locates_readWhole
    (blames : ∀ found e, outcome (read found) = .error e → L.Blames (text.length + 1) found e)
    (stops : ∀ found t rest, outcome (read found) = .ok (t, rest) → ∃ used, found = used ++ rest ∧
      L.Formula used ∧ (nodes t).Sublist used ∧ ∀ x ∈ rest.head?, ¬L.Joins x.value) :
    L.Locates text nodes (readWhole L.text (L.tokens text) read) := by
  constructor
  · intro e failed
    have fault := fault_of_readWhole blames stops failed
    exact ⟨fault, fault.shows, fault.shows.position⟩
  · intro t whole
    obtain ⟨found, lexed, level⟩ := readWhole_eq_ok_iff.mp whole
    obtain ⟨used, split, -, sublist, -⟩ := stops found t [] level
    rw [List.append_nil] at split
    subst split
    exact ⟨found, lexed, sublist, fun x member => exists_spelling_of_tokens lexed member⟩

end Reader

end FormulaLanguage

end DiscreteMath.Text
