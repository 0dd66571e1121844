import DiscreteMath.Proofs.Proposition.Groups
import DiscreteMath.Proofs.Text.Blanks

/-!
# What the checks of a text find

Before a text is read its characters are checked. Each of the checks finds nothing exactly if the
text has a property that can be said without the scan.

## Main definitions

* `Sound` — none of the checks finds a defect.
* `Uncrowded` — no connectives side by side, as far as the check looks.
* `crowds` — two neighbours that the check objects to.
* `Whole` — the doubled signs can be taken out of a word wherever it stands.
-/

namespace DiscreteMath.Proposition

open Text

variable {text word rest : List Char}

/-! ### Parentheses -/

theorem forall_prefix_cons {α : Type} {P : List α → Prop} {x : α} {rest : List α} :
    (∀ front, front <+: x :: rest → P front) ↔
      P [] ∧ ∀ front, front <+: rest → P (x :: front) := by
  simp only [List.prefix_cons_iff]
  grind

theorem parenthesisDefect?_eq_none_iff {opened : List Nat} {p : Nat} :
    parenthesisDefect? opened p text = none ↔
      text.countP (· == ')') = opened.length + text.countP (· == '(') ∧
        ∀ front, front <+: text →
          front.countP (· == ')') ≤ opened.length + front.countP (· == '(') := by
  -- The induction is on the scan, so the count starts at any number of open parentheses.
  fun_induction parenthesisDefect? opened p text with
  | case1 opened p => cases opened <;> simp
  | case2 opened p rest ih =>
    rw [ih, forall_prefix_cons]
    refine and_congr (by simp; omega) ?_
    simp only [List.countP_nil, Nat.zero_le, true_and]
    exact forall₂_congr fun front _ => by simp; omega
  | case3 p rest other =>
    refine iff_of_false nofun fun ⟨_, nonneg⟩ => ?_
    simpa using nonneg [')'] (List.prefix_append [_] rest)
  | case4 p rest other first outer ih =>
    rw [ih, forall_prefix_cons]
    refine and_congr (by simp; omega) ?_
    simp only [List.countP_nil, Nat.zero_le, true_and]
    exact forall₂_congr fun front _ => by simp; omega
  | case5 opened p c rest noOpening noClosing ih =>
    rw [ih, forall_prefix_cons]
    simp [noOpening, noClosing]

theorem parenthesisDefect?_nil_eq_none_iff {p : Nat} :
    parenthesisDefect? [] p text = none ↔ Matched text := by
  rw [parenthesisDefect?_eq_none_iff]
  constructor
  · rintro ⟨even, nonneg⟩
    exact ⟨by simpa using even, by simpa using nonneg⟩
  · rintro ⟨even, nonneg⟩
    exact ⟨by simpa using even, by simpa using nonneg⟩

/-! ### Ends -/

def beginsConnective (c : Char) : Bool := isConnectiveEdge c || c == '-'

def endsConnective (c : Char) : Bool := isConnectiveEdge c || c == '>'

theorem binarySpellings_ends : ∀ op ∈ binarySpellings,
    op.toList.head?.map beginsConnective = some true ∧
      op.toList.getLast?.map endsConnective = some true := by
  decide

theorem endDefect?_eq_none_iff : endDefect? text = none ↔
    ∀ op ∈ binarySpellings, ¬ op.toList <+: trim text ∧ ¬ op.toList <:+ trim text := by
  simp only [endDefect?, List.findSome?_eq_none_iff, ← List.isPrefixOf_iff_prefix,
    ← List.isSuffixOf_iff_suffix]
  grind

theorem no_connective_at_ends (first : (compact text).head?.map beginsConnective = some false)
    (last : (compact text).getLast?.map endsConnective = some false) :
    ∀ op ∈ binarySpellings, ¬ op.toList <+: trim text ∧ ¬ op.toList <:+ trim text := by
  intro op listed
  obtain ⟨start, stop⟩ := binarySpellings_ends op listed
  rw [head?_compact, ← head?_trim] at first
  rw [← getLast?_trim] at last
  constructor
  · rintro ⟨rest, whole⟩
    rw [← whole, List.head?_append] at first
    grind
  · rintro ⟨front, whole⟩
    rw [← whole, List.getLast?_append] at last
    grind

/-! ### Words -/

theorem variableDefect?_eq_none_iff : variableDefect? text = none ↔
    ∀ c ∈ withoutOperators text, isBlank c = false → isLetter c = true := by
  have runs : (∀ word ∈ words (withoutOperators text), ∀ c ∈ word, isLetter c = true) ↔ _ :=
    forall_runs
  simpa [variableDefect?] using runs

variable {a b : Char}

theorem replacePair_cons {c : Char} (other : c ≠ a) :
    replacePair a b (c :: rest) = c :: replacePair a b rest := by
  cases rest <;> simp [replacePair, other]

theorem replacePair_eq_self (absent : a ∉ word) : replacePair a b word = word := by
  induction word with
  | nil => rfl
  | cons c word ih => rw [replacePair_cons (by grind), ih (by grind)]

theorem replacePair_append (whole : word = [a, b] ∨ a ∉ word) :
    replacePair a b (word ++ rest) = replacePair a b word ++ replacePair a b rest := by
  rcases whole with rfl | absent
  · simp [replacePair]
  · rw [replacePair_eq_self absent]
    induction word with
    | nil => rfl
    | cons c word ih => rw [List.cons_append, replacePair_cons (by grind), ih (by grind)]; rfl

/-- The signs that are written twice or with two characters. -/
def doubled : List (Char × Char) := [('-', '>'), ('&', '&'), ('|', '|'), ('ǀ', 'ǀ')]

theorem doubled_spec : ∀ pair ∈ doubled, isBlank pair.1 = false ∧ isLetter pair.1 = false := by
  decide

/-- The word is one of the doubled signs or has no part in any. -/
def Whole (pairs : List (Char × Char)) (word : List Char) : Prop :=
  ∀ pair ∈ pairs, word = [pair.1, pair.2] ∨ pair.1 ∉ word

def replacePairs (pairs : List (Char × Char)) (text : List Char) : List Char :=
  pairs.foldl (fun cs (a, b) => replacePair a b cs) text

theorem replacePairs_append {pairs : List (Char × Char)} (visible : ∀ pair ∈ pairs, pair.1 ≠ ' ')
    (whole : Whole pairs word) :
    replacePairs pairs (word ++ rest) = replacePairs pairs word ++ replacePairs pairs rest := by
  induction pairs generalizing word rest with
  | nil => rfl
  | cons pair pairs ih =>
    obtain ⟨here, later⟩ := List.forall_mem_cons.mp whole
    have visible' : ∀ pair ∈ pairs, pair.1 ≠ ' ' := (List.forall_mem_cons.mp visible).2
    simp only [replacePairs, List.foldl_cons] at ih ⊢
    rw [replacePair_append here]
    refine ih visible' ?_
    -- What is left of the word is the word itself or a space.
    rcases here with rfl | absent
    · intro other member
      exact .inr (by simpa [replacePair] using visible' other member)
    · rwa [replacePair_eq_self absent]

theorem withoutOperators_append (whole : Whole doubled word) :
    withoutOperators (word ++ rest) = withoutOperators word ++ withoutOperators rest := by
  change (replacePairs doubled (word ++ rest)).map _ = _
  rw [replacePairs_append (by decide) whole, List.map_append]
  rfl

theorem whole_of_isLetter (letters : ∀ c ∈ word, isLetter c = true) : Whole doubled word := by
  intro pair member
  have := (doubled_spec pair member).2
  grind

theorem whole_of_isBlank {c : Char} (blank : isBlank c = true) : Whole doubled [c] := by
  intro pair member
  have := (doubled_spec pair member).1
  grind

theorem withoutOperators_cons {c : Char} (blank : isBlank c = true) :
    withoutOperators (c :: rest) = withoutOperators [c] ++ withoutOperators rest :=
  withoutOperators_append (whole_of_isBlank blank)

theorem isLetter_eq_false_of_isSeparator {c : Char} (h : isSeparator c = true) :
    isLetter c = false := by
  have table : ("∧∨⊕↔→⇒".toList ++ "!¬˜~()".toList).all (!isLetter ·) = true := by decide
  simp only [isSeparator, isConnectiveSign, Bool.or_eq_true, List.contains_iff_mem,
    ← List.mem_append] at h
  simpa using List.all_eq_true.mp table c h

theorem withoutOperators_letters (letters : ∀ c ∈ word, isLetter c = true) :
    withoutOperators word = word := by
  have same (pairs : List (Char × Char)) (other : ∀ pair ∈ pairs, isLetter pair.1 = false) :
      replacePairs pairs word = word := by
    induction pairs with
    | nil => rfl
    | cons pair pairs ih =>
      obtain ⟨here, later⟩ := List.forall_mem_cons.mp other
      have absent : pair.1 ∉ word := by grind
      simpa [replacePairs, replacePair_eq_self absent] using ih later
  change (replacePairs doubled word).map _ = word
  rw [same doubled fun pair member => (doubled_spec pair member).2]
  refine (List.map_congr_left fun c member => ?_).trans (List.map_id word)
  have := isLetter_eq_false_of_isSeparator (c := c)
  grind

/-! ### Neighbours -/

/-- The check for connectives side by side objects to nothing in the text. It knows the connectives
that are signs of their own, and the arrow `->` among all others. -/
structure Uncrowded (previous? : Option Char) (text : List Char) : Prop where
  signs : ∀ c d, [c, d] <:+: text → isConnectiveSign c = true →
    isConnectiveSign d = false ∧ d ≠ '-'
  after : ∀ d, ['-', '>', d] <:+: text → isConnectiveEdge d = false
  before : ∀ c, [c, '-', '>'] <:+: previous?.toList ++ text → isConnectiveEdge c = false
  first : previous? = none → ¬ ['-', '>'] <+: text
  last : ¬ ['-', '>'] <:+ text

section Uncrowded

variable {previous? : Option Char} {previous c d : Char}

theorem uncrowded_short (short : text.length < 2) : Uncrowded previous? text where
  signs c d part := by
    have := part.length_le
    grind
  after d part := by
    have := part.length_le
    grind
  before c part := by
    have := part.length_le
    cases previous? <;> grind
  first _ part := by
    have := part.length_le
    grind
  last part := by
    have := part.length_le
    grind

theorem uncrowded_arrow : Uncrowded (some previous) ('-' :: '>' :: d :: rest) ↔
    isConnectiveEdge previous = false ∧ isConnectiveEdge d = false ∧
      Uncrowded (some '>') (d :: rest) := by
  have noSign : isConnectiveSign '-' = false ∧ isConnectiveSign '>' = false := by decide
  have noEdge : isConnectiveEdge '-' = false ∧ isConnectiveEdge '>' = false := by decide
  constructor
  · intro h
    refine ⟨h.before _ (by simp [List.infix_cons_iff]), h.after _ (by simp [List.infix_cons_iff]),
      fun c d part => h.signs c d (part.trans ⟨['-', '>'], [], by simp⟩),
      fun d part => h.after d (part.trans ⟨['-', '>'], [], by simp⟩),
      fun c part => h.before c (part.trans ⟨[previous, '-'], [], by simp⟩), nofun,
      fun part => h.last (part.trans ⟨['-', '>'], by simp⟩)⟩
  · rintro ⟨outer, inner, h⟩
    constructor
    · intro c d part
      have := h.signs c d
      grind [List.infix_cons_iff]
    · intro d part
      have := h.after d
      grind [List.infix_cons_iff]
    · intro c part
      have := h.before c
      simp only [Option.toList_some, List.singleton_append] at this part
      grind [List.infix_cons_iff]
    · nofun
    · have := h.last
      grind [List.suffix_cons_iff]

theorem not_uncrowded_arrow (bare : previous? = none ∨ rest = []) :
    ¬ Uncrowded previous? ('-' :: '>' :: rest) := by
  intro h
  rcases bare with none | rfl
  · exact h.first none (by simp)
  · exact h.last List.suffix_rfl

theorem uncrowded_cons (other : ¬ (c = '-' ∧ d = '>')) : Uncrowded previous? (c :: d :: rest) ↔
    ¬ (isConnectiveSign c = true ∧ (isConnectiveSign d = true ∨ d = '-')) ∧
      Uncrowded (some c) (d :: rest) := by
  constructor
  · intro h
    refine ⟨fun ⟨sign, next⟩ => ?_, fun c d part => h.signs c d (List.infix_cons part),
      fun d part => h.after d (List.infix_cons part),
      fun c part => h.before c (part.trans ⟨previous?.toList, [], by simp⟩), nofun,
      fun part => h.last (part.trans (List.suffix_cons _ _))⟩
    have := h.signs c d (by simp [List.infix_cons_iff]) sign
    grind
  · rintro ⟨apart, h⟩
    constructor
    · intro c d part
      have := h.signs c d
      grind [List.infix_cons_iff]
    · intro d part
      have := h.after d
      grind [List.infix_cons_iff]
    · intro e part
      have := h.before e
      cases previous? <;> grind [List.infix_cons_iff]
    · grind
    · have := h.last
      grind [List.suffix_cons_iff]

theorem adjacencyDefect?_eq_none_iff {p : Nat} :
    adjacencyDefect? previous? p text = none ↔ Uncrowded previous? text := by
  -- An arrow is passed as a whole, and every other step passes one character.
  fun_induction adjacencyDefect? previous? p text with
  | case1 p c d arrow previous next rest edge =>
    obtain ⟨rfl, rfl⟩ : c = '-' ∧ d = '>' := by simpa using arrow
    simp [uncrowded_arrow, edge]
  | case2 p c d arrow previous next rest other edge =>
    obtain ⟨rfl, rfl⟩ : c = '-' ∧ d = '>' := by simpa using arrow
    simp [uncrowded_arrow, edge]
  | case3 p c d arrow previous next rest noEdge noEdge' ih =>
    obtain ⟨rfl, rfl⟩ : c = '-' ∧ d = '>' := by simpa using arrow
    rw [ih, uncrowded_arrow]
    grind
  | case4 previous? p c d rest arrow bare =>
    obtain ⟨rfl, rfl⟩ : c = '-' ∧ d = '>' := by simpa using arrow
    refine iff_of_false nofun (not_uncrowded_arrow ?_)
    cases previous? <;> cases rest <;> grind
  | case5 previous? p c d rest other clash =>
    rw [uncrowded_cons (by grind)]
    grind
  | case6 previous? p c d rest other apart ih =>
    rw [ih, uncrowded_cons (by grind)]
    grind
  | case7 previous? p text short =>
    refine iff_of_true rfl (uncrowded_short ?_)
    match text with
    | [] | [_] => simp
    | c :: d :: rest => exact absurd rfl (short c d rest)

end Uncrowded

/-- The first character ends a connective that the second one may not follow. -/
def crowds (c d : Char) : Bool :=
  isConnectiveSign c && isConnectiveSign d || isConnectiveEdge c && d == '-' ||
    c == '>' && isConnectiveEdge d

theorem isConnectiveEdge_of_isConnectiveSign {c : Char} (h : isConnectiveSign c = true) :
    isConnectiveEdge c = true := by
  simp [isConnectiveEdge, h]

theorem ends_begins_of_crowds {c d : Char} (h : crowds c d = true) :
    endsConnective c = true ∧ beginsConnective d = true := by
  have := isConnectiveEdge_of_isConnectiveSign (c := c)
  have := isConnectiveEdge_of_isConnectiveSign (c := d)
  grind [crowds, endsConnective, beginsConnective]

theorem uncrowded_of_isChain (apart : text.IsChain fun c d => crowds c d = false)
    (first : ∀ c ∈ text.head?, c ≠ '-') (last : ∀ c ∈ text.getLast?, c ≠ '>') :
    Uncrowded none text := by
  have window {part : List Char} (inside : part <:+: text) :
      part.IsChain fun c d => crowds c d = false := apart.infix inside
  constructor
  · intro c d part sign
    have := isConnectiveEdge_of_isConnectiveSign sign
    have := window part
    grind [crowds]
  · intro d part
    have := window part
    grind [crowds]
  · intro c part
    have := window part
    grind [crowds]
  · rintro - ⟨rest, rfl⟩
    simp at first
  · rintro ⟨front, rfl⟩
    simp at last

/-! ### All checks -/

structure Sound (text : List Char) : Prop where
  filled : compact text ≠ []
  matched : Matched text
  ends : ∀ op ∈ binarySpellings, ¬ op.toList <+: trim text ∧ ¬ op.toList <:+ trim text
  words : ∀ c ∈ withoutOperators text, isBlank c = false → isLetter c = true
  neighbours : Uncrowded none (compact text)

theorem defect?_eq_none_iff : defect? text = none ↔ Sound text := by
  rw [defect?]
  split
  next blank =>
    rw [List.isEmpty_iff, trim_eq_nil_iff] at blank
    exact iff_of_false nofun fun sound => sound.filled blank
  next filled =>
    rw [List.isEmpty_iff, trim_eq_nil_iff] at filled
    simp only [Option.orElse_eq_orElse, Option.orElse_eq_or, Option.or_eq_none_iff,
      parenthesisDefect?_nil_eq_none_iff, endDefect?_eq_none_iff, variableDefect?_eq_none_iff,
      adjacencyDefect?_eq_none_iff]
    constructor
    · rintro ⟨matched, ends, words, neighbours⟩
      exact ⟨filled, matched, ends, words, neighbours⟩
    · rintro ⟨-, matched, ends, words, neighbours⟩
      exact ⟨matched, ends, words, neighbours⟩

end DiscreteMath.Proposition
