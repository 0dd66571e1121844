import DiscreteMath.Proofs.Proposition.Checks

/-!
# Formulas pass the checks

The checks know nothing of the grammar, and still none of them objects to a formula, however it is
written: its operands are letters, it neither begins nor ends with a connective, and no two
connectives are neighbours. Of two connectives side by side the checks find some pairs and miss the
others wherever they stand.

## Main definitions

* `Clean` — what makes a text pass the checks, alone and as an operand of connectives.
* `Noticed` — two connectives that the checks find side by side.
-/

namespace DiscreteMath.Proposition

open Text

/-- The text passes the checks, and nothing in it gets in the way of a connective next to it. -/
structure Clean (text : List Char) : Prop where
  matched : Matched text
  first : (compact text).head?.map beginsConnective = some false
  last : (compact text).getLast?.map endsConnective = some false
  cut : ∀ rest, withoutOperators (text ++ rest) = withoutOperators text ++ withoutOperators rest
  words : ∀ c ∈ withoutOperators text, isBlank c = false → isLetter c = true
  apart : (compact text).IsChain fun c d => crowds c d = false

namespace Clean

variable {text : List Char}

theorem not_begins (clean : Clean text) {c : Char} (start : c ∈ (compact text).head?) :
    beginsConnective c = false :=
  Option.mem_unique (Option.mem_map_of_mem _ start) clean.first

theorem not_ends (clean : Clean text) {c : Char} (stop : c ∈ (compact text).getLast?) :
    endsConnective c = false :=
  Option.mem_unique (Option.mem_map_of_mem _ stop) clean.last

theorem sound (clean : Clean text) : Sound text where
  filled none := by simpa [none] using clean.first
  matched := clean.matched
  ends := no_connective_at_ends clean.first clean.last
  words := clean.words
  neighbours := by
    refine uncrowded_of_isChain clean.apart ?_ ?_
    · rintro - start rfl
      exact absurd (clean.not_begins start) (by decide)
    · rintro - stop rfl
      exact absurd (clean.not_ends stop) (by decide)

end Clean

/-! ### Tokens and their spellings -/

def Token.isConnective : Token → Bool
  | connective _ => true
  | _ => false

theorem isConnectiveEdge_eq_false_of_isLetter {c : Char} (letter : isLetter c = true) :
    isConnectiveEdge c = false ∧ c ≠ '-' ∧ c ≠ '>' := by
  have table : ("∧∨⊕↔→⇒".toList ++ "&|ǀ".toList ++ ['-', '>']).all (!isLetter ·) = true := by
    decide
  simp only [List.all_eq_true, Bool.not_eq_true'] at table
  have other := table c
  simp only [isConnectiveEdge, isConnectiveSign, ← Bool.not_eq_true]
  grind

theorem signs_ends : ∀ entry ∈ signs,
    entry.2.head?.map beginsConnective = some entry.1.isConnective ∧
      entry.2.getLast?.map endsConnective = some entry.1.isConnective := by
  decide

section Spellings

variable {token : Token} {spelling : List Char}

theorem Spells.first (spells : Spells token spelling) :
    spelling.head?.map beginsConnective = some token.isConnective := by
  cases spells with
  | name some run =>
    obtain ⟨c, rest, rfl⟩ := List.exists_cons_of_ne_nil some
    have := isConnectiveEdge_eq_false_of_isLetter (run c List.mem_cons_self)
    simp [beginsConnective, Token.isConnective, this]
  | sign listed => exact (signs_ends _ listed).1

theorem Spells.last (spells : Spells token spelling) :
    spelling.getLast?.map endsConnective = some token.isConnective := by
  cases spells with
  | name some run =>
    obtain ⟨front, c, rfl⟩ := (List.eq_nil_or_concat _).resolve_left some
    have := isConnectiveEdge_eq_false_of_isLetter (run c (by simp))
    simp [endsConnective, Token.isConnective, this]
  | sign listed => exact (signs_ends _ listed).2

theorem Spells.apart (spells : Spells token spelling) :
    spelling.IsChain fun c d => crowds c d = false := by
  cases spells with
  | name _ run =>
    refine (List.pairwise_of_forall_mem_list fun c letter d _ => ?_).isChain
    have := isConnectiveEdge_eq_false_of_isLetter (run c letter)
    have := isConnectiveEdge_of_isConnectiveSign (c := c)
    grind [crowds]
  | sign listed =>
    have table : ∀ entry ∈ signs, entry.2.IsChain fun c d => crowds c d = false := by decide
    exact table _ listed

theorem Spells.whole (spells : Spells token spelling) : Whole doubled spelling := by
  cases spells with
  | name _ run => exact whole_of_isLetter run
  | sign listed =>
    have table : ∀ entry ∈ signs, ∀ pair ∈ doubled,
        entry.2 = [pair.1, pair.2] ∨ pair.1 ∉ entry.2 := by decide
    exact table _ listed

theorem Spells.words (spells : Spells token spelling) :
    ∀ c ∈ withoutOperators spelling, Text.isBlank c = false → isLetter c = true := by
  cases spells with
  | name _ run =>
    rw [withoutOperators_letters run]
    exact fun c member _ => run c member
  | sign listed =>
    have table : ∀ entry ∈ signs, (withoutOperators entry.2).all Text.isBlank = true := by decide
    intro c member visible
    rw [List.all_eq_true.mp (table _ listed) c member] at visible
    cases visible

end Spellings

/-! ### Texts of tokens -/

namespace Reads

variable {p : Nat} {text : List Char} {found : List (Placed Token)}

theorem cut_withoutOperators (reads : Reads p text found) (rest : List Char) :
    withoutOperators (text ++ rest) = withoutOperators text ++ withoutOperators rest := by
  induction reads using Reads.induction with
  | nil p => rfl
  | skip p c text found spacing _ ih =>
    have blank := isBlank_of_isSpacing spacing
    calc withoutOperators (c :: (text ++ rest))
        = withoutOperators [c] ++ (withoutOperators text ++ withoutOperators rest) := by
          rw [withoutOperators_cons blank, ih]
      _ = withoutOperators (c :: text) ++ withoutOperators rest := by
          rw [← List.append_assoc, ← withoutOperators_cons blank]
  | spelled p token spelling text found spells _ _ ih =>
    rw [List.append_assoc, withoutOperators_append spells.whole, ih,
      withoutOperators_append spells.whole, List.append_assoc]

theorem words (reads : Reads p text found) :
    ∀ c ∈ withoutOperators text, isBlank c = false → isLetter c = true := by
  induction reads using Reads.induction with
  | nil p => nofun
  | skip p c text found spacing _ ih =>
    have blank := isBlank_of_isSpacing spacing
    rw [withoutOperators_cons blank]
    refine List.forall_mem_append.mpr ⟨fun d member visible => ?_, ih⟩
    have : d = ' ' ∨ d = c := by
      simp only [withoutOperators, List.foldl_cons, List.foldl_nil, replacePair, List.map_cons,
        List.map_nil, List.mem_singleton] at member
      grind
    rcases this with rfl | rfl
    · revert visible
      decide
    · rw [blank] at visible
      cases visible
  | spelled p token spelling text found spells _ _ ih =>
    rw [withoutOperators_append spells.whole]
    exact List.forall_mem_append.mpr ⟨spells.words, ih⟩

theorem not_visible_of_isSpacing {c : Char} (spacing : isSpacing c = true) :
    ¬ ∀ d ∈ c :: text, isBlank d = false := by
  have blank := isBlank_of_isSpacing spacing
  simp [blank]

/-- A text without blanks begins as its first token does. -/
theorem first (reads : Reads p text found) (visible : ∀ c ∈ text, isBlank c = false) :
    text.head?.map beginsConnective = found.head?.map (·.value.isConnective) := by
  induction reads using Reads.induction with
  | nil p => rfl
  | skip p c text found spacing _ _ =>
    exact absurd visible (not_visible_of_isSpacing spacing)
  | spelled p token spelling text found spells _ _ _ =>
    have first := spells.first
    rw [List.head?_append]
    grind

theorem last (reads : Reads p text found) (visible : ∀ c ∈ text, isBlank c = false) :
    text.getLast?.map endsConnective = found.getLast?.map (·.value.isConnective) := by
  induction reads using Reads.induction with
  | nil p => rfl
  | skip p c text found spacing _ _ =>
    exact absurd visible (not_visible_of_isSpacing spacing)
  | spelled p token spelling text found spells _ reads ih =>
    have last := spells.last
    have later := ih (List.forall_mem_append.mp visible).2
    rw [List.getLast?_append, List.getLast?_cons]
    grind

/-- Where no two connectives are neighbours among the tokens, no two crowd each other in a text
without blanks. -/
theorem apart (reads : Reads p text found) (visible : ∀ c ∈ text, isBlank c = false)
    (parted : found.IsChain fun x y =>
      x.value.isConnective = false ∨ y.value.isConnective = false) :
    text.IsChain fun c d => crowds c d = false := by
  induction reads using Reads.induction with
  | nil p => exact .nil
  | skip p c text found spacing _ _ =>
    exact absurd visible (not_visible_of_isSpacing spacing)
  | spelled p token spelling text found spells _ reads ih =>
    obtain ⟨visible', visible⟩ := List.forall_mem_append.mp visible
    obtain ⟨neighbour, parted⟩ := List.isChain_cons.mp parted
    refine List.isChain_append.mpr ⟨spells.apart, ih visible parted, fun c stop d start => ?_⟩
    have ends := Option.mem_unique (Option.mem_map_of_mem endsConnective stop) spells.last
    have begins := Option.mem_map_of_mem beginsConnective start
    rw [reads.first visible] at begins
    obtain ⟨x, next, same⟩ := Option.map_eq_some_iff.mp begins
    -- Characters that crowd each other belong to two connectives.
    refine eq_false_of_ne_true fun crowded => ?_
    obtain ⟨ending, beginning⟩ := ends_begins_of_crowds crowded
    rcases neighbour x next with here | there
    · exact Bool.false_ne_true (here.symm.trans (ends.symm.trans ending))
    · exact Bool.false_ne_true (there.symm.trans (same.trans beginning))

end Reads

/-! ### Formulas -/

namespace Derives

variable {level : Option Connective} {t : Formula} {tokens : List (Placed Token)}

theorem ends (derives : Derives level t tokens) :
    tokens.head?.map (·.value.isConnective) = some false ∧
      tokens.getLast?.map (·.value.isConnective) = some false := by
  induction derives with
  | name letters p => exact ⟨rfl, rfl⟩
  | negation p _ ih =>
    refine ⟨rfl, ?_⟩
    rw [List.getLast?_cons]
    grind
  | parentheses p q _ ih => exact ⟨rfl, by rw [List.getLast?_concat]; rfl⟩
  | operand _ ih => exact ih
  | left _ p _ _ ihLeft ihRight | right p _ _ ihLeft ihRight =>
    constructor
    · rw [List.head?_append]
      grind
    · rw [List.getLast?_append, List.getLast?_cons]
      grind

/-- No two connectives are neighbours among the tokens of a formula. -/
theorem parted (derives : Derives level t tokens) : tokens.IsChain fun x y =>
    x.value.isConnective = false ∨ y.value.isConnective = false := by
  induction derives with
  | name letters p => exact List.isChain_singleton _
  | negation p _ ih => exact List.isChain_cons.mpr ⟨fun _ _ => .inl rfl, ih⟩
  | parentheses p q _ ih =>
    refine List.isChain_append.mpr ⟨List.isChain_cons.mpr ⟨fun _ _ => .inl rfl, ih⟩,
      List.isChain_singleton _, fun x _ y last => ?_⟩
    cases last
    exact .inr rfl
  | operand _ ih => exact ih
  | left _ p left right ihLeft ihRight | right p left right ihLeft ihRight =>
    refine List.isChain_append.mpr ⟨ihLeft, List.isChain_cons.mpr ⟨fun y start => ?_, ihRight⟩,
      fun x stop _ _ => ?_⟩
    · have first := Option.mem_map_of_mem (fun y => y.value.isConnective) start
      exact .inr (Option.mem_unique first right.ends.1)
    · have last := Option.mem_map_of_mem (fun x => x.value.isConnective) stop
      exact .inl (Option.mem_unique last left.ends.2)

end Derives

theorem isBlank_of_mem_compact {text : List Char} : ∀ c ∈ compact text, isBlank c = false := by
  simp [compact]

theorem clean_of_read {text : List Char} {t : Formula} (read : Formula.read text = .ok t) :
    Clean text := by
  obtain ⟨found, lexed, derives⟩ := read_eq_ok_iff.mp read
  have reads := tokens_eq_ok_iff.mp lexed
  have whole := reads.compact derives.separate 1
  have visible : ∀ c ∈ compact text, isBlank c = false := isBlank_of_mem_compact
  have moved := derives.move (Reads.placeFrom 1 1 text)
  exact ⟨reads.balanced_iff.mp derives.balanced, (whole.first visible).trans moved.ends.1,
    (whole.last visible).trans moved.ends.2, reads.cut_withoutOperators, reads.words,
    whole.apart visible moved.parted⟩

/-- No check objects to a formula, in whatever spellings and with whatever spacing. -/
theorem passes_checks {text : List Char} {t : Formula} (read : Formula.read text = .ok t) :
    parenthesisDefect? [] 1 text = none ∧ endDefect? text = none ∧ variableDefect? text = none ∧
      adjacencyDefect? none 1 (compact text) = none ∧ defect? text = none := by
  have sound := (clean_of_read read).sound
  exact ⟨parenthesisDefect?_nil_eq_none_iff.mpr sound.matched,
    endDefect?_eq_none_iff.mpr sound.ends, variableDefect?_eq_none_iff.mpr sound.words,
    adjacencyDefect?_eq_none_iff.mpr sound.neighbours, defect?_eq_none_iff.mpr sound⟩

/-- Arrows stand next to negations and parentheses, and the signs are spelled in several ways. -/
theorem passes_checks_arrows :
    let text := "~(p->!q) ǀǀ ( ¬r\t-> ˜(s && p)->q)".toList
    (∃ t, Formula.read text = .ok t) ∧ parenthesisDefect? [] 1 text = none ∧
      endDefect? text = none ∧ variableDefect? text = none ∧
      adjacencyDefect? none 1 (compact text) = none ∧ defect? text = none := by
  intro text
  have read : Formula.read text = .ok
      (.binary (.negation (.binary (.atom "p" 3) .implies (.negation (.atom "q" 7) 6) 4) 1) .or
        (.binary (.negation (.atom "r" 16) 15) .implies (.binary
          (.negation (.binary (.atom "s" 23) .and (.atom "p" 28) 25) 21) .implies
          (.atom "q" 32) 30) 18) 10) := by
    decide +kernel
  exact ⟨⟨_, read⟩, passes_checks read⟩

/-! ### Connectives side by side -/

/-- Just one of the connectives is an arrow `->`, or both are single signs. -/
def Noticed (first second : String) : Prop :=
  (first = "->" ↔ second ≠ "->") ∨ (first.length = 1 ∧ second.length = 1)

instance (first second : String) : Decidable (Noticed first second) :=
  inferInstanceAs (Decidable (_ ∨ _))

theorem binarySpellings_edges : ∀ op ∈ binarySpellings,
    (op ≠ "->" → op.toList.head?.map isConnectiveEdge = some true ∧
      op.toList.getLast?.map isConnectiveEdge = some true) ∧
    (op.length = 1 → op.toList.map isConnectiveSign = [true]) := by
  decide

section Neighbours

variable {first second : String} (listed : first ∈ binarySpellings)
  (listed' : second ∈ binarySpellings)
include listed listed'

/-- Two connectives that are noticed crowd any text. -/
theorem Uncrowded.not_infix {text : List Char} (uncrowded : Uncrowded none text)
    (noticed : Noticed first second) : ¬ first.toList ++ second.toList <:+: text := by
  intro inside
  have arrow : "->".toList = ['-', '>'] := rfl
  obtain ⟨edges, signs⟩ := binarySpellings_edges first listed
  obtain ⟨edges', signs'⟩ := binarySpellings_edges second listed'
  rcases noticed with one | ⟨short, short'⟩
  · by_cases isArrow : first = "->"
    · obtain ⟨d, start, edge⟩ := Option.map_eq_some_iff.mp (edges' (one.mp isArrow)).1
      obtain ⟨rest, split⟩ := List.head?_eq_some_iff.mp start
      have part : ['-', '>', d] <:+: first.toList ++ second.toList :=
        ⟨[], rest, by simp [isArrow, arrow, split]⟩
      rw [uncrowded.after d (part.trans inside)] at edge
      cases edge
    · have isArrow' : second = "->" := by grind
      obtain ⟨c, stop, edge⟩ := Option.map_eq_some_iff.mp (edges isArrow).2
      obtain ⟨front, split⟩ := List.getLast?_eq_some_iff.mp stop
      have part : [c, '-', '>'] <:+: first.toList ++ second.toList :=
        ⟨front, [], by simp [isArrow', arrow, split]⟩
      rw [uncrowded.before c (part.trans inside)] at edge
      cases edge
  · obtain ⟨c, split, sign⟩ := List.map_eq_singleton_iff.mp (signs short)
    obtain ⟨d, split', sign'⟩ := List.map_eq_singleton_iff.mp (signs' short')
    rw [split, split', List.singleton_append] at inside
    rw [(uncrowded.signs c d inside sign).1] at sign'
    cases sign'

theorem apart_of_not_noticed (missed : ¬ Noticed first second) :
    (first.toList ++ second.toList).IsChain fun c d => crowds c d = false := by
  have table : ∀ first ∈ binarySpellings, ∀ second ∈ binarySpellings, ¬ Noticed first second →
      (first.toList ++ second.toList).IsChain fun c d => crowds c d = false := by decide
  exact table first listed second listed' missed

end Neighbours

/-- The text of a connective. -/
theorem exists_spells {op : String} (listed : op ∈ binarySpellings) :
    ∃ token, Spells token op.toList ∧ token.isConnective = true := by
  have table : ∀ op ∈ binarySpellings, ∃ entry ∈ signs, entry.2 = op.toList ∧
      entry.1.isConnective = true := by decide
  obtain ⟨⟨token, spelling⟩, inside, rfl, connective⟩ := table op listed
  exact ⟨token, .sign inside, connective⟩

theorem matched_of_listed {op : String} (listed : op ∈ binarySpellings) : Matched op.toList := by
  obtain ⟨token, spells, connective⟩ := exists_spells listed
  have reads : Reads 1 op.toList [⟨token, 1⟩] := by
    rw [← List.append_nil op.toList]
    exact .of_spells spells (fun _ => nofun) (.nil _)
  refine reads.balanced_iff.mp (.single ?_ ?_)
  all_goals cases token <;> simp_all [Token.isConnective, isOpening, isClosing]

/-- Two connectives that are not noticed can join clean texts. -/
theorem Clean.join {left right : List Char} (outer : Clean left) (inner : Clean right)
    {first second : String} (listed : first ∈ binarySpellings)
    (listed' : second ∈ binarySpellings) (missed : ¬ Noticed first second) :
    Clean (left ++ (first.toList ++ (second.toList ++ right))) := by
  obtain ⟨token, spells, connective⟩ := exists_spells listed
  obtain ⟨token', spells', connective'⟩ := exists_spells listed'
  have visible := compact_eq_self spells.isBlank
  have visible' := compact_eq_self spells'.isBlank
  have whole : compact (left ++ (first.toList ++ (second.toList ++ right))) =
      compact left ++ ((first.toList ++ second.toList) ++ compact right) := by
    simp only [compact_append, visible, visible', List.append_assoc]
  have begins := outer.first
  have ends := inner.last
  refine ⟨outer.matched.append ((matched_of_listed listed).append
    ((matched_of_listed listed').append inner.matched)), ?_, ?_, fun rest => ?_, ?_, ?_⟩
  · rw [whole, List.head?_append]
    grind
  · rw [whole, List.getLast?_append, List.getLast?_append]
    grind
  · simp only [List.append_assoc, outer.cut, withoutOperators_append spells.whole,
      withoutOperators_append spells'.whole, inner.cut]
  · simp only [outer.cut, withoutOperators_append spells.whole,
      withoutOperators_append spells'.whole, List.forall_mem_append]
    exact ⟨outer.words, spells.words, spells'.words, inner.words⟩
  · rw [whole]
    have pair := apart_of_not_noticed listed listed' missed
    refine List.isChain_append.mpr ⟨outer.apart,
      List.isChain_append.mpr ⟨pair, inner.apart, fun c _ d start => ?_⟩, fun c stop d _ => ?_⟩
    · refine eq_false_of_ne_true fun crowded => ?_
      simpa [inner.not_begins start] using (ends_begins_of_crowds crowded).2
    · refine eq_false_of_ne_true fun crowded => ?_
      simpa [outer.not_ends stop] using (ends_begins_of_crowds crowded).1

/-- Connectives side by side make a text defective if they are noticed. The checks let any other two
pass between any two formulas. -/
theorem adjacent_connectives {first second : String} (listed : first ∈ binarySpellings)
    (listed' : second ∈ binarySpellings) :
    (Noticed first second → ∀ text, first.toList ++ second.toList <:+: compact text →
        ∃ defect, defect? text = some defect) ∧
      (¬ Noticed first second → ∀ left right s t, Formula.read left = .ok s →
        Formula.read right = .ok t →
        defect? (left ++ first.toList ++ second.toList ++ right) = none) := by
  constructor
  · intro noticed text inside
    refine Option.ne_none_iff_exists'.mp fun none => ?_
    have neighbours := (defect?_eq_none_iff.mp none).neighbours
    exact neighbours.not_infix listed listed' noticed inside
  · intro missed left right s t read read'
    have clean := (clean_of_read read).join (clean_of_read read') listed listed' missed
    rw [List.append_assoc, List.append_assoc]
    exact defect?_eq_none_iff.mpr clean.sound

/-- An arrow is noticed next to another connective, and two doubled signs are not. -/
theorem adjacent_connectives_doubled :
    "->" ∈ binarySpellings ∧ "&&" ∈ binarySpellings ∧ "||" ∈ binarySpellings ∧
      (∃ defect, defect? "p -> && q".toList = some defect) ∧
      defect? "p&&||q".toList = none := by
  have arrow : "->" ∈ binarySpellings := by decide
  have and : "&&" ∈ binarySpellings := by decide
  have or : "||" ∈ binarySpellings := by decide
  have read : Formula.read "p".toList = .ok (.atom "p" 1) := by decide +kernel
  have read' : Formula.read "q".toList = .ok (.atom "q" 1) := by decide +kernel
  exact ⟨arrow, and, or,
    (adjacent_connectives arrow and).1 (by decide) "p -> && q".toList ⟨['p'], ['q'], by decide⟩,
    (adjacent_connectives and or).2 (by decide) _ _ _ _ read read'⟩

/-- A conjunction sign next to `&&` is not noticed. -/
theorem adjacent_connectives_missed :
    ¬ ∀ first ∈ binarySpellings, ∀ second ∈ binarySpellings, ∀ text,
      first.toList ++ second.toList <:+: compact text → ∃ defect, defect? text = some defect := by
  intro claim
  obtain ⟨defect, found⟩ :=
    claim "∧" (by decide) "&&" (by decide) "p ∧ && q".toList ⟨['p'], ['q'], by decide⟩
  have valid : defect? "p ∧ && q".toList = none := by decide +kernel
  rw [valid] at found
  cases found

end DiscreteMath.Proposition
