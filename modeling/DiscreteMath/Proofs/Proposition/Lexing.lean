import DiscreteMath.Proofs.Text.Pieces
import DiscreteMath.Proposition.Token
import Mathlib

/-!
# Lexing propositional formulas

The tokens of a text and their spellings. In a text without two adjacent names the blanks can be
left out, and at a parenthesis the text can be cut; the tokens stay the same, and their places move.

## Main definitions

* `Spells` — the characters spell the token.
* `Reads` — the text consists of the tokens and of spacing.
* `Separate` — no two names are neighbours.
-/

namespace DiscreteMath

namespace Text

def Placed.move (f : Nat → Nat) (x : Placed α) : Placed α := ⟨x.value, f x.position⟩

theorem isBlank_eq_false_of_isLetter {c : Char} (h : isLetter c = true) : isBlank c = false := by
  have range : 65 ≤ c.toNat ∧ c.toNat ≤ 122 := by
    simp only [isLetter, Char.isAlpha, Char.isUpper, Char.isLower, Bool.or_eq_true,
      Bool.and_eq_true, decide_eq_true_eq, UInt32.le_iff_toNat_le, ge_iff_le] at h
    have value : c.val.toNat = c.toNat := rfl
    simp only [value] at h
    change (65 ≤ c.toNat ∧ c.toNat ≤ 90) ∨ (97 ≤ c.toNat ∧ c.toNat ≤ 122) at h
    omega
  simp [isBlank]
  omega

theorem isLetter_eq_false_of_isSpacing {c : Char} (h : isSpacing c = true) :
    isLetter c = false := by
  refine eq_false_of_ne_true fun letter => ?_
  have visible := isBlank_eq_false_of_isLetter letter
  simp [isBlank_of_isSpacing h] at visible

theorem compact_append (text more : List Char) :
    compact (text ++ more) = compact text ++ compact more := by
  simp [compact]

theorem compact_eq_self {text : List Char} (h : ∀ c ∈ text, isBlank c = false) :
    compact text = text := by
  simpa [compact] using h

end Text

namespace Proposition

open Text

def signs : List (Token × List Char) :=
  [(.opening, ['(']), (.closing, [')']), (.negation, ['¬']), (.negation, ['!']),
    (.negation, ['~']), (.negation, ['˜']), (.connective .and, ['∧']),
    (.connective .and, ['&', '&']), (.connective .or, ['∨']), (.connective .or, ['|', '|']),
    (.connective .or, ['ǀ', 'ǀ']), (.connective .xor, ['⊕']), (.connective .implies, ['→']),
    (.connective .implies, ['⇒']), (.connective .implies, ['-', '>']),
    (.connective .iff, ['↔'])]

inductive Spells : Token → List Char → Prop
  | name {letters : List Char} : letters ≠ [] → (∀ c ∈ letters, isLetter c = true) →
      Spells (.name (String.ofList letters)) letters
  | sign {token : Token} {text : List Char} : (token, text) ∈ signs → Spells token text

def Token.name? : Token → Option String
  | name letters => some letters
  | _ => none

/-- The token is not a name that goes on with the text. -/
def Apart (token : Token) (text : List Char) : Prop :=
  token.name? ≠ none → ∀ c ∈ text.head?, isLetter c = false

theorem signs_spec : ∀ entry ∈ signs, entry.1.name? = none ∧ entry.2 ≠ [] ∧
    ∀ c ∈ entry.2, isBlank c = false ∧ isLetter c = false := by
  have table : ∀ entry ∈ signs, entry.1.name? = none ∧ entry.2 ≠ [] ∧
      entry.2.all (fun c => !isBlank c && !isLetter c) = true := by decide
  simpa [List.all_eq_true] using table

variable {token : Token} {spelling : List Char}

theorem Spells.ne_nil (h : Spells token spelling) : spelling ≠ [] := by
  cases h with
  | name some _ => exact some
  | sign listed => exact (signs_spec _ listed).2.1

theorem Spells.isBlank (h : Spells token spelling) : ∀ c ∈ spelling, isBlank c = false := by
  cases h with
  | name _ letters => exact fun c member => isBlank_eq_false_of_isLetter (letters c member)
  | sign listed => exact fun c member => ((signs_spec _ listed).2.2 c member).1

/-- A sign begins with a character that no name has. -/
theorem Spells.isLetter_head (h : Spells token spelling) (unnamed : token.name? = none)
    (rest : List Char) : ∀ c ∈ (spelling ++ rest).head?, isLetter c = false := by
  cases h with
  | name some letters => cases unnamed
  | sign listed =>
    obtain ⟨-, some, signs⟩ := signs_spec _ listed
    obtain ⟨c, following, same⟩ := List.exists_cons_of_ne_nil some
    obtain rfl : spelling = c :: following := same
    intro d first
    cases first
    exact (signs c List.mem_cons_self).2

/-- What a token begins with is one of its spellings, up to the next character. -/
theorem spells_of_start? {c : Char} {rest : List Char} {more : Nat}
    (h : Token.start? c rest = some (token, more)) :
    ∃ spelling, c :: rest = spelling ++ rest.drop more ∧ spelling.length = more + 1 ∧
      Spells token spelling ∧ Apart token (rest.drop more) := by
  unfold Token.start? at h
  split at h
  next letter =>
    simp only [Option.some.injEq, Prod.mk.injEq] at h
    obtain ⟨rfl, rfl⟩ := h
    have split : rest.takeWhile isLetter ++ rest.dropWhile isLetter = rest :=
      List.takeWhile_append_dropWhile
    have left : rest.drop (rest.takeWhile isLetter).length = rest.dropWhile isLetter :=
      (congrArg (List.drop _) split).symm.trans List.drop_left
    rw [left]
    refine ⟨c :: rest.takeWhile isLetter, by simp, rfl, .name (by simp) ?_, fun _ d first => ?_⟩
    · have run : ∀ d ∈ rest.takeWhile isLetter, isLetter d = true :=
        List.all_eq_true.mp List.all_takeWhile
      simpa [letter] using run
    · have := List.head?_dropWhile_not isLetter rest
      simpa [Option.mem_def.mp first] using this
  next other =>
    have apart (rest : List Char) (unnamed : token.name? = none) : Apart token rest :=
      fun named => absurd unnamed named
    split at h
    all_goals cases h
    all_goals first
      | exact ⟨[_], rfl, rfl, .sign (by decide), apart _ rfl⟩
      | exact ⟨[_, _], rfl, rfl, .sign (by decide), apart _ rfl⟩

theorem start?_of_spells {c : Char} {following rest : List Char}
    (h : Spells token (c :: following)) (apart : Apart token rest) :
    Token.start? c (following ++ rest) = some (token, following.length) := by
  generalize text : c :: following = spelling at h
  cases h with
  | name some letters =>
    subst text
    have first : isLetter c = true := letters c List.mem_cons_self
    obtain ⟨run, -⟩ := span_run (fun d member => letters d (List.mem_cons_of_mem c member))
      (apart (by simp [Token.name?]))
    simp only [Token.start?, first, if_true, run]
  | sign listed =>
    subst text
    simp only [signs, List.mem_cons, Prod.mk.injEq, List.cons.injEq, List.not_mem_nil,
      or_false] at listed
    rcases listed with h | h | h | h | h | h | h | h | h | h | h | h | h | h | h | h
    all_goals obtain ⟨rfl, rfl, rfl⟩ := h
    all_goals rfl

/-! ### Texts -/

theorem runs_letters {letters rest : List Char} (some : letters ≠ [])
    (run : ∀ c ∈ letters, isLetter c = true) (apart : ∀ c ∈ rest.head?, isLetter c = false) :
    runs isLetter (letters ++ rest) = letters :: runs isLetter rest := by
  cases letters with
  | nil => exact absurd rfl some
  | cons c following =>
    obtain ⟨more, left⟩ :=
      span_run (fun d member => run d (List.mem_cons_of_mem c member)) apart
    rw [List.cons_append, runs, if_pos (run c List.mem_cons_self), more, left]

theorem runs_signs {spelling rest : List Char} (signs : ∀ c ∈ spelling, isLetter c = false) :
    runs isLetter (spelling ++ rest) = runs isLetter rest := by
  induction spelling with
  | nil => rfl
  | cons c following ih =>
    obtain ⟨first, others⟩ := List.forall_mem_cons.mp signs
    rw [List.cons_append, runs, first]
    exact ih others

abbrev Reads : Nat → List Char → List (Placed Token) → Prop := Lexes isSpacing Token.start?

theorem tokens_eq_ok_iff {text : List Char} {found : List (Placed Token)} :
    tokens text = .ok found ↔ Reads 1 text found := tokensOrStray_pieces

namespace Reads

theorem of_spells {p : Nat} {rest : List Char} {found : List (Placed Token)}
    (spells : Spells token spelling) (apart : Apart token rest)
    (reads : Reads (p + spelling.length) rest found) :
    Reads p (spelling ++ rest) (⟨token, p⟩ :: found) := by
  cases spelling with
  | nil => exact absurd rfl spells.ne_nil
  | cons c following =>
    refine .token ?_ (start?_of_spells spells apart) ?_
    · refine eq_false_of_ne_true fun spacing => ?_
      have visible := spells.isBlank c List.mem_cons_self
      simp [isBlank_of_isSpacing spacing] at visible
    · have left : (following ++ rest).drop following.length = rest := List.drop_left
      have place : p + 1 + following.length = p + (c :: following).length := by
        rw [List.length_cons]
        omega
      rw [List.append_eq, left, place]
      exact reads

/-- A text that is read is spacing and spellings. -/
theorem induction
    {motive : ∀ (p : Nat) (text : List Char) (found : List (Placed Token)),
      Reads p text found → Prop}
    (nil : ∀ p, motive p [] [] (.nil p))
    (skip : ∀ p c rest found (spacing : isSpacing c = true) (reads : Reads (p + 1) rest found),
      motive (p + 1) rest found reads → motive p (c :: rest) found (.skip spacing reads))
    (spelled : ∀ p token spelling rest found (spells : Spells token spelling)
      (apart : Apart token rest) (reads : Reads (p + spelling.length) rest found),
      motive (p + spelling.length) rest found reads →
      motive p (spelling ++ rest) (⟨token, p⟩ :: found) (of_spells spells apart reads))
    {p : Nat} {text : List Char} {found : List (Placed Token)} (reads : Reads p text found) :
    motive p text found reads := by
  induction reads with
  | nil p => exact nil p
  | skip spacing reads ih => exact skip _ _ _ _ spacing reads ih
  | @token p more c rest token found visible started reads ih =>
    obtain ⟨spelling, split, length, spells, apart⟩ := spells_of_start? started
    have place : p + 1 + more = p + spelling.length := by omega
    have rest : Reads (p + spelling.length) (rest.drop more) found := place ▸ reads
    have whole := spelled p token spelling _ found spells apart rest
    simp only [← split, ← place] at whole
    exact whole ih

variable {p : Nat} {text : List Char} {found : List (Placed Token)}

theorem le_position (reads : Reads p text found) : ∀ x ∈ found, p ≤ x.position := by
  induction reads using Reads.induction with
  | nil p => simp
  | skip p c rest found _ _ ih =>
    intro x member
    have := ih x member
    omega
  | spelled p token spelling rest found _ _ _ ih =>
    intro x member
    rcases List.mem_cons.mp member with rfl | later
    · exact Nat.le_refl p
    · have := ih x later
      omega

/-- The places of the tokens count from where the text starts. -/
theorem unshift {d : Nat} (reads : Reads (p + d) text found) :
    Reads p text (found.map (·.move (· - d))) := by
  generalize place : p + d = q at reads
  induction reads using Reads.induction generalizing p with
  | nil q => exact .nil p
  | skip q c rest found spacing _ ih => exact .skip spacing (ih (by omega))
  | spelled q token spelling rest found spells apart _ ih =>
    have first : q - d = p := by omega
    rw [List.map_cons, Placed.move, first]
    exact of_spells spells apart (ih (by omega))

theorem isLetter_head (reads : Reads p text found)
    (unnamed : ∀ x ∈ found.head?, x.value.name? = none) :
    ∀ c ∈ (Text.compact text).head?, isLetter c = false := by
  induction reads using Reads.induction with
  | nil p => simp [Text.compact]
  | skip p c rest found spacing _ ih =>
    have blank := isBlank_of_isSpacing spacing
    simpa [Text.compact, blank] using ih unnamed
  | spelled p token spelling rest found spells _ _ _ =>
    rw [compact_append, compact_eq_self spells.isBlank]
    exact spells.isLetter_head (unnamed _ rfl) _

end Reads

/-- No two names are neighbours. -/
def Separate (found : List (Placed Token)) : Prop :=
  found.IsChain fun x y => x.value.name? = none ∨ y.value.name? = none

namespace Reads

variable {p : Nat} {text : List Char} {found : List (Placed Token)}

/-- The place of a token that starts at `p` in `text`, if the blanks are left out and the first
token is at `k`. -/
def placeFrom (p k : Nat) (text : List Char) (q : Nat) : Nat :=
  k + (Text.compact (text.take (q - p))).length

/-- Without blanks, and with other places, the tokens are the same. -/
theorem compact (reads : Reads p text found) (separate : Separate found) (k : Nat) :
    Reads k (Text.compact text) (found.map (·.move (placeFrom p k text))) := by
  induction reads using Reads.induction generalizing k with
  | nil p => exact .nil _
  | skip p c rest found spacing reads ih =>
    have blank := isBlank_of_isSpacing spacing
    have same : Text.compact (c :: rest) = Text.compact rest := by simp [Text.compact, blank]
    have places : found.map (·.move (placeFrom p k (c :: rest))) =
        found.map (·.move (placeFrom (p + 1) k rest)) := by
      refine List.map_congr_left fun x member => ?_
      have ahead : x.position - p = x.position - (p + 1) + 1 := by
        have := reads.le_position x member
        omega
      simp [Placed.move, placeFrom, ahead, Text.compact, blank]
    rw [same, places]
    exact ih separate k
  | spelled p token spelling rest found spells apart reads ih =>
    have visible : Text.compact spelling = spelling := compact_eq_self spells.isBlank
    have places : found.map (·.move (placeFrom p k (spelling ++ rest))) =
        found.map (·.move (placeFrom (p + spelling.length) (k + spelling.length) rest)) := by
      refine List.map_congr_left fun x member => ?_
      have ahead : x.position - p = spelling.length + (x.position - (p + spelling.length)) := by
        have := reads.le_position x member
        omega
      simp only [Placed.move, placeFrom, ahead, List.take_length_add_append, compact_append,
        visible, List.length_append, Nat.add_assoc]
    have first : placeFrom p k (spelling ++ rest) p = k := by simp [placeFrom, Text.compact]
    rw [compact_append, visible, List.map_cons, places, Placed.move, first]
    obtain ⟨neighbour, separate⟩ := List.isChain_cons.mp separate
    refine of_spells spells (fun named => reads.isLetter_head fun x next => ?_) (ih separate _)
    exact (neighbour x next).resolve_left named

/-- The runs of letters are the names. -/
theorem runs_eq (reads : Reads p text found) :
    (runs isLetter text).map String.ofList = found.filterMap (·.value.name?) := by
  induction reads using Reads.induction with
  | nil p => simp [runs]
  | skip p c rest found spacing _ ih =>
    rw [runs, isLetter_eq_false_of_isSpacing spacing]
    exact ih
  | spelled p token spelling rest found spells apart _ ih =>
    cases spells with
    | name some letters =>
      rw [runs_letters some letters (apart (by simp [Token.name?])), List.map_cons, ih]
      rfl
    | sign listed =>
      obtain ⟨unnamed, -, signs⟩ := signs_spec _ listed
      rw [runs_signs (fun c member => (signs c member).2), ih, List.filterMap_cons, unnamed]

/-- At a bracket, which is a sign of its own, a text can be cut. -/
theorem cut {b : Char} {bracket : Token} (visible : isSpacing b = false)
    (sole : ∀ {token spelling}, Spells token spelling → b ∈ spelling →
      spelling = [b] ∧ token = bracket)
    {before after : List Char} (reads : Reads p (before ++ b :: after) found) :
    ∃ first second, found = first ++ ⟨bracket, p + before.length⟩ :: second ∧
      Reads p before first ∧ Reads (p + before.length + 1) after second := by
  generalize whole : before ++ b :: after = text at reads
  induction reads using Reads.induction generalizing before with
  | nil p => simp at whole
  | skip p c rest found spacing _ ih =>
    cases before with
    | nil =>
      cases whole
      rw [visible] at spacing
      cases spacing
    | cons d before =>
      cases whole
      obtain ⟨first, second, rfl, left, right⟩ := ih rfl
      have place : p + 1 + before.length = p + (c :: before).length := by
        rw [List.length_cons]
        omega
      rw [place] at right ⊢
      exact ⟨first, second, rfl, .skip spacing left, right⟩
  | spelled p token spelling rest found spells apart reads ih =>
    have later (inner : List Char) (outer : before = spelling ++ inner)
        (split : rest = inner ++ b :: after) :
        ∃ first second, ⟨token, p⟩ :: found = first ++ ⟨bracket, p + before.length⟩ :: second ∧
          Reads p before first ∧ Reads (p + before.length + 1) after second := by
      subst outer split
      obtain ⟨first, second, rfl, left, right⟩ := ih rfl
      have place : p + spelling.length + inner.length = p + (spelling ++ inner).length := by
        rw [List.length_append]
        omega
      rw [place] at right ⊢
      refine ⟨⟨token, p⟩ :: first, second, rfl, of_spells spells ?_ left, right⟩
      intro named c head
      refine apart named c ?_
      cases inner with
      | nil => cases head
      | cons d inner => exact head
    rcases List.append_eq_append_iff.mp whole with ⟨inner, split, outer⟩ | ⟨inner, outer, split⟩
    · cases inner with
      | nil =>
        refine later [] ?_ ?_
        · simpa using split.symm
        · simpa using outer.symm
      | cons d inner =>
        cases outer
        obtain ⟨alone, rfl⟩ := sole spells (by simp [split])
        rw [alone] at reads split
        have lengths := congrArg List.length split
        simp only [List.length_append, List.length_cons, List.length_nil] at lengths
        obtain rfl : before = [] := List.eq_nil_of_length_eq_zero (by omega)
        obtain rfl : inner = [] := List.eq_nil_of_length_eq_zero (by omega)
        exact ⟨[], found, rfl, .nil p, reads⟩
    · exact later inner outer split

end Reads

end Proposition

end DiscreteMath
