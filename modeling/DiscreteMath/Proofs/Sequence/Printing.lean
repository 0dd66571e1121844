import DiscreteMath.Proofs.Number.ReadingBack
import DiscreteMath.Proofs.Sequence.Grammar

/-!
# Reading what is printed

The canonical text of a formula is read as the same formula at other places, wherever the text
stands, if its numbers are finite and have no sign. The numbers that are read never have a sign.

## Main definitions

* `Formula.bare` — the formula without its places.
* `Formula.numbers` — the numbers in a formula.
* `Prints` — the characters are read, wherever they stand, as the formula.
-/

namespace DiscreteMath.Sequence

open Text

def Operation.phrase : Operation → Phrase
  | add | sub => .sum
  | mul | div | rem => .product
  | pow => .power

namespace Formula

def bare : Formula → Formula
  | number x _ => number x 0
  | index _ => index 0
  | negation body _ => negation (bare body) 0
  | binary left op right _ => binary (bare left) op (bare right) 0
  | call f argument _ => call f (bare argument) 0

def numbers : Formula → List Float
  | number x _ => [x]
  | index _ => []
  | negation body _ => numbers body
  | binary left _ right _ => numbers left ++ numbers right
  | call _ argument _ => numbers argument

theorem evaluate_bare (k : Float) (t : Formula) : t.bare.evaluate k = t.evaluate k := by
  induction t with
  | number x p => rfl
  | index p => rfl
  | negation body p ih => rw [bare, evaluate, ih, evaluate]
  | binary l op r p ihLeft ihRight => rw [bare, evaluate, ihLeft, ihRight, evaluate]
  | call f argument p ih => rw [bare, evaluate, ih, evaluate]

theorem binding_bare (t : Formula) : t.bare.binding = t.binding := by
  cases t <;> rfl

theorem text_bare (t : Formula) : t.bare.text = t.text := by
  induction t with
  | number x p => rfl
  | index p => rfl
  | negation body p ih => rw [bare, text, ih, binding_bare, text]
  | binary l op r p ihLeft ihRight =>
    rw [bare, text, ihLeft, ihRight, binding_bare, binding_bare, text]
  | call f argument p ih => rw [bare, text, ih, text]

theorem numbers_bare (t : Formula) : t.bare.numbers = t.numbers := by
  induction t with
  | number x p => rfl
  | index p => rfl
  | negation body p ih => exact ih
  | binary l op r p ihLeft ihRight => rw [bare, numbers, ihLeft, ihRight, numbers]
  | call f argument p ih => exact ih

def phrase : Formula → Phrase
  | number _ _ | index _ | call _ _ _ => .primary
  | negation _ _ => .unary
  | binary _ op _ _ => op.phrase

end Formula

theorem binding_phrase (t : Formula) : t.phrase.binding = t.binding := by
  cases t with
  | binary l op r p => cases op <;> rfl
  | number | index | negation | call => rfl

variable {phrase : Phrase} {s t : Formula}

/-! ### Tokens in a text -/

abbrev Reads (p : Nat) (text : List Char) (found : List (Placed Token)) : Prop :=
  Lexes isSpacing Token.start? p text found

/-- What follows the text of a formula. -/
def Apart (rest : List Char) : Prop := ∀ c ∈ rest.head?, c = ' ' ∨ c = ')'

theorem Apart.not {p : Char → Bool} {rest : List Char} (apart : Apart rest)
    (space : p ' ' = false) (closing : p ')' = false) : ∀ c ∈ rest.head?, p c = false := by
  intro c first
  rcases apart c first with rfl | rfl
  · exact space
  · exact closing

theorem isSpacing_eq_false {c : Char} (h : Token.continuesName c = true) :
    isSpacing c = false := by
  by_contra spacing
  simp only [isSpacing, Bool.not_eq_false, Bool.or_eq_true, beq_iff_eq] at spacing
  rcases spacing with (((rfl | rfl) | rfl) | rfl) | rfl <;> cases h

namespace Reads

variable {p : Nat} {rest : List Char} {others : List (Placed Token)}

theorem operation (op : Operation) (later : Reads (p + 3) rest others) :
    Reads p (' ' :: (op.symbol.toList ++ ' ' :: rest)) (⟨.operation op, p + 1⟩ :: others) := by
  have space : Reads (p + 2) (' ' :: rest) others := .skip rfl later
  refine .skip rfl ?_
  cases op <;> exact .token rfl rfl space

theorem minus (later : Reads (p + 1) rest others) :
    Reads p ('-' :: rest) (⟨.operation .sub, p⟩ :: others) := .token rfl rfl later

theorem opening (later : Reads (p + 1) rest others) :
    Reads p ('(' :: rest) (⟨.opening, p⟩ :: others) := .token rfl rfl later

theorem closing (later : Reads (p + 1) rest others) :
    Reads p (')' :: rest) (⟨.closing, p⟩ :: others) := .token rfl rfl later

theorem token {c : Char} {more : List Char} {token : Token} (keep : isSpacing c = false)
    (start : Token.start? c (more ++ rest) = some (token, more.length))
    (later : Reads (p + (c :: more).length) rest others) :
    Reads p (c :: more ++ rest) (⟨token, p⟩ :: others) := by
  rw [List.length_cons, Nat.add_comm more.length, ← Nat.add_assoc] at later
  refine Lexes.token keep start ?_
  change Reads _ (List.drop more.length (more ++ rest)) others
  rwa [List.drop_left]

theorem name {c : Char} {letters : List Char} (begins : Token.beginsName c = true)
    (continues : ∀ d ∈ letters, Token.continuesName d = true)
    (apart : ∀ d ∈ rest.head?, Token.continuesName d = false)
    (later : Reads (p + (c :: letters).length) rest others) :
    Reads p (c :: letters ++ rest) (⟨.name (String.ofList (c :: letters)), p⟩ :: others) := by
  refine token (isSpacing_eq_false (by rw [Token.continuesName, begins]; rfl)) ?_ later
  simp only [Token.start?, begins, if_true, (span_run continues apart).1]

end Reads

/-! ### Number literals -/

theorem fractionPart_append {ds rest : List Char} (digits : ∀ c ∈ ds, c.isDigit = true)
    (apart : Apart rest) :
    Token.fractionPart ((if ds = [] then [] else '.' :: ds) ++ rest) =
      if ds = [] then [] else '.' :: ds := by
  split
  next =>
    cases rest with
    | nil => rfl
    | cons c more => rcases apart c rfl with rfl | rfl <;> rfl
  next some => simp [Token.fractionPart, (span_run digits (apart.not rfl rfl)).1, some]

theorem exponentPart_apart {rest : List Char} (apart : Apart rest) :
    Token.exponentPart rest = [] := by
  cases rest with
  | nil => rfl
  | cons c more => rcases apart c rfl with rfl | rfl <;> rfl

theorem numberPart_append (s : Number.Spelling) {rest : List Char} (apart : Apart rest) :
    Token.numberPart (s.text ++ rest) = s.text := by
  obtain ⟨whole, fraction, nonempty, wholeDigits, fractionDigits⟩ := s
  simp only [Number.Spelling.text]
  set tail := if fraction = [] then [] else '.' :: fraction with shape
  have digits : (whole ++ tail ++ rest).takeWhile Char.isDigit = whole := by
    rw [List.append_assoc]
    refine (span_run wholeDigits ?_).1
    rw [shape]
    split
    next => exact apart.not rfl rfl
    next => simp
  have significand : whole ++ Token.fractionPart ((whole ++ tail ++ rest).drop whole.length) =
      whole ++ tail := by
    rw [List.append_assoc, List.drop_left, fractionPart_append fractionDigits apart]
  unfold Token.numberPart
  simp only [digits, significand]
  rw [List.drop_left, exponentPart_apart apart]
  simp [nonempty]

theorem beginsName_eq_false {c : Char} (digit : c.isDigit = true) : Token.beginsName c = false := by
  by_contra begins
  simp only [Token.beginsName, isLetter, Char.isAlpha, Char.isUpper, Char.isLower, Char.isDigit,
    Bool.not_eq_false, Bool.or_eq_true, Bool.and_eq_true, decide_eq_true_eq, beq_iff_eq, ge_iff_le,
    UInt32.le_iff_toNat_le] at digit begins
  rcases begins with (⟨low, -⟩ | ⟨low, -⟩) | rfl
  · exact absurd (low.trans digit.2) (by decide)
  · exact absurd (low.trans digit.2) (by decide)
  · exact absurd digit.2 (by decide)

theorem Reads.number (s : Number.Spelling) {p : Nat} {rest : List Char}
    {others : List (Placed Token)} (apart : Apart rest)
    (later : Reads (p + s.text.length) rest others) :
    Reads p (s.text ++ rest) (⟨.number s.decimal.toFloat, p⟩ :: others) := by
  have literal := numberPart_append s apart
  have value := s.number?_text
  obtain ⟨c, more, split, digit⟩ := s.exists_head
  rw [split] at literal value later ⊢
  refine .token (isSpacing_eq_false (by rw [Token.continuesName, digit, Bool.or_true])) ?_ later
  rw [List.cons_append] at literal
  simp [Token.start?, beginsName_eq_false digit, digit, literal, value]

/-! ### Formulas in a text -/

/-- The characters are read, wherever they stand, as the formula at some places. -/
def Prints (phrase : Phrase) (t : Formula) (text : List Char) : Prop :=
  ∀ p, ∃ u found, u.bare = t.bare ∧ Yields phrase u found ∧ ∀ rest others,
    Apart rest → Reads (p + text.length) rest others → Reads p (text ++ rest) (found ++ others)

/-- The name of a function is read as a name. -/
theorem exists_letters (f : Function) : ∃ c letters, f.name.toList = c :: letters ∧
    Token.beginsName c = true ∧ ∀ d ∈ letters, Token.continuesName d = true := by
  cases f with
  | sqrt => exact ⟨'s', ['q', 'r', 't'], rfl, rfl, List.all_eq_true.mp rfl⟩
  | sin => exact ⟨'s', ['i', 'n'], rfl, rfl, List.all_eq_true.mp rfl⟩
  | cos => exact ⟨'c', ['o', 's'], rfl, rfl, List.all_eq_true.mp rfl⟩
  | tan => exact ⟨'t', ['a', 'n'], rfl, rfl, List.all_eq_true.mp rfl⟩
  | log => exact ⟨'l', ['o', 'g'], rfl, rfl, List.all_eq_true.mp rfl⟩
  | ln => exact ⟨'l', ['n'], rfl, rfl, List.all_eq_true.mp rfl⟩

namespace Prints

variable {phrase looser : Phrase} {s t : Formula} {text more : List Char}

theorem loosen (prints : Prints phrase t text) (le : looser.binding ≤ phrase.binding) :
    Prints looser t text := by
  intro p
  obtain ⟨u, found, alike, yields, reads⟩ := prints p
  exact ⟨u, found, alike, yields.loosen looser le, reads⟩

theorem number {x : Float} (finite : x.isFinite = true) (sign : Number.isNegative x = false)
    (q : Nat) : Prints .primary (.number x q) (Number.shortest x).toList := by
  intro p
  obtain ⟨s, written, value⟩ := Number.exists_shortest finite sign
  refine ⟨.number x p, _, rfl, .number x p, fun rest others apart later => ?_⟩
  rw [written] at later ⊢
  have whole := Reads.number s apart later
  rwa [value] at whole

theorem index (q : Nat) : Prints .primary (.index q) indexName.toList := by
  intro p
  refine ⟨.index p, _, rfl, .index p, fun rest others apart later => ?_⟩
  have begins : Token.beginsName 'k' = true := rfl
  exact Reads.name begins nofun (apart.not rfl rfl) later

theorem parentheses (prints : Prints .sum t text) : Prints .primary t ('(' :: (text ++ [')'])) := by
  intro p
  obtain ⟨u, found, alike, yields, reads⟩ := prints (p + 1)
  refine ⟨u, _, alike, .parentheses p (p + 1 + text.length) yields,
    fun rest others apart later => ?_⟩
  have place : p + ('(' :: (text ++ [')'])).length = p + 1 + text.length + 1 := by
    simp only [List.length_cons, List.length_append, List.length_nil]
    omega
  rw [place] at later
  have inner := reads _ _ (by simp [Apart]) later.closing
  simpa using inner.opening

/-- A formula that binds as tight as the phrase needs no parentheses in it. -/
theorem operand {needed : Prop} [Decidable needed] {text : String}
    (prints : Prints t.phrase t text.toList) (fits : ¬needed → looser.binding ≤ t.binding) :
    Prints looser t (Formula.enclosed needed text).toList := by
  by_cases enclosing : needed
  · have sum : Prints .sum t text.toList := prints.loosen (by cases t.phrase <;> decide)
    have whole : Prints looser t _ := sum.parentheses.loosen (by cases looser <;> decide)
    simpa [Formula.enclosed, enclosing] using whole
  · have bare : Prints looser t text.toList :=
      prints.loosen (binding_phrase t ▸ fits enclosing)
    simpa [Formula.enclosed, enclosing] using bare

theorem negation (prints : Prints .unary t text) (q : Nat) :
    Prints .unary (.negation t q) ('-' :: text) := by
  intro p
  obtain ⟨u, found, alike, yields, reads⟩ := prints (p + 1)
  refine ⟨.negation u p, _, congrArg (Formula.negation · 0) alike, .minus p yields,
    fun rest others apart later => (reads rest others apart ?_).minus⟩
  rwa [List.length_cons, Nat.add_comm text.length, ← Nat.add_assoc] at later

theorem binary {first second whole : Phrase} (op : Operation)
    (joins : ∀ {l r p used used'}, Yields first l used → Yields second r used' →
      Yields whole (.binary l op r p) (used ++ ⟨.operation op, p⟩ :: used'))
    (left : Prints first s text) (right : Prints second t more) (q : Nat) :
    Prints whole (.binary s op t q) (text ++ ' ' :: (op.symbol.toList ++ ' ' :: more)) := by
  intro p
  obtain ⟨l, found, alike, yields, reads⟩ := left p
  obtain ⟨r, found', alike', yields', reads'⟩ := right (p + text.length + 3)
  refine ⟨.binary l op r (p + text.length + 1), _, ?_, joins yields yields',
    fun rest others apart later => ?_⟩
  · rw [Formula.bare, alike, alike', Formula.bare]
  · have place : p + (text ++ ' ' :: (op.symbol.toList ++ ' ' :: more)).length =
        p + text.length + 3 + more.length := by
      have length : op.symbol.toList.length = 1 := by cases op <;> decide
      simp only [List.length_append, List.length_cons, length]
      omega
    rw [place] at later
    have middle := (reads' rest others apart later).operation op
    have all := reads _ _ (by simp [Apart]) middle
    simpa using all

theorem call (f : Function) (prints : Prints .sum t text) (q : Nat) :
    Prints .primary (.call f t q) (f.name.toList ++ '(' :: (text ++ [')'])) := by
  obtain ⟨c, letters, spelled, begins, continues⟩ := exists_letters f
  intro p
  obtain ⟨u, found, alike, yields, reads⟩ := prints (p + f.name.toList.length + 1)
  refine ⟨.call f u p, _, congrArg (Formula.call f · 0) alike,
    .call f p (p + f.name.toList.length) (p + f.name.toList.length + 1 + text.length) yields,
    fun rest others apart later => ?_⟩
  have place : p + (f.name.toList ++ '(' :: (text ++ [')'])).length =
      p + f.name.toList.length + 1 + text.length + 1 := by
    simp only [List.length_cons, List.length_append, List.length_nil]
    omega
  rw [place] at later
  have inner := (reads _ _ (by simp [Apart]) later.closing).opening
  rw [spelled] at inner
  have whole := Reads.name begins continues (by simp; decide) inner
  rw [← spelled, String.ofList_toList] at whole
  simpa using whole

end Prints

theorem exists_level {op : Operation} (other : op ≠ .pow) : ∃ l : Level, op ∈ l.operations := by
  cases op with
  | add | sub => exact ⟨.sum, by decide⟩
  | mul | div | rem => exact ⟨.product, by decide⟩
  | pow => exact absurd rfl other

theorem binding_level {l : Level} {op : Operation} (listed : op ∈ l.operations) :
    l.phrase.binding = op.precedence := by
  revert listed
  cases l <;> cases op <;> decide

theorem binding_operand {l : Level} {op : Operation} (listed : op ∈ l.operations) :
    l.operand.binding = op.precedence + 1 := by
  revert listed
  cases l <;> cases op <;> decide

theorem phrase_level {l : Level} {op : Operation} (listed : op ∈ l.operations) :
    l.phrase = op.phrase := by
  revert listed
  cases l <;> cases op <;> decide

/-- The canonical text of a formula. -/
theorem prints_text {t : Formula}
    (finite : ∀ x ∈ t.numbers, x.isFinite = true ∧ Number.isNegative x = false) :
    Prints t.phrase t t.text.toList := by
  induction t with
  | number x p =>
    obtain ⟨finite, sign⟩ := finite x (List.mem_singleton_self x)
    exact .number finite sign p
  | index p => exact .index p
  | negation body p ih =>
    have inner : Prints .unary body (Formula.enclosed (body.binding < 5) body.text).toList :=
      (ih finite).operand fun bare => Nat.le_trans (by decide) (Nat.not_lt.mp bare)
    have whole := inner.negation p
    simpa [Formula.text, Formula.phrase] using whole
  | binary l op r p ihLeft ihRight =>
    have left := ihLeft fun x member => finite x (List.mem_append_left _ member)
    have right := ihRight fun x member => finite x (List.mem_append_right _ member)
    -- A power takes a primary formula to a signed power; all else groups to the left.
    by_cases pow : op = .pow
    · subst pow
      let strength := Operation.pow.precedence
      have base : Prints .primary l (Formula.enclosed (l.binding ≤ strength) l.text).toList :=
        left.operand fun bare => Nat.not_le.mp bare
      have exponent : Prints .unary r (Formula.enclosed (r.binding < strength) r.text).toList :=
        right.operand fun bare => Nat.le_of_succ_le (Nat.not_lt.mp bare)
      have whole := base.binary .pow (.exponent _) exponent p
      simpa [Formula.text, Formula.phrase, Operation.phrase] using whole
    · obtain ⟨level, listed⟩ := exists_level pow
      have first : Prints level.phrase l
          (Formula.enclosed (l.binding < op.precedence) l.text).toList :=
        left.operand fun bare => (binding_level listed).trans_le (Nat.not_lt.mp bare)
      have second : Prints level.operand r
          (Formula.enclosed (r.binding ≤ op.precedence) r.text).toList :=
        right.operand fun bare => (binding_operand listed).trans_le (Nat.not_le.mp bare)
      have whole := first.binary op (.append listed _) second p
      rw [phrase_level listed] at whole
      simpa [Formula.text, Formula.phrase, pow] using whole
  | call f argument p ih =>
    have sum : Prints .sum argument argument.text.toList :=
      (ih finite).loosen (by cases argument.phrase <;> decide)
    have whole := sum.call f p
    simpa [Formula.text, Formula.phrase] using whole

theorem Prints.exists_read {text : List Char} (prints : Prints phrase t text) :
    ∃ u, Formula.read text = .ok u ∧ u.bare = t.bare := by
  have sum : Prints .sum t text := prints.loosen (by cases phrase <;> decide)
  obtain ⟨u, found, alike, yields, reads⟩ := sum 1
  have whole := reads [] [] nofun (.nil _)
  rw [List.append_nil, List.append_nil] at whole
  exact ⟨u, read_of_yields (tokensOrStray_pieces.mpr whole) yields, alike⟩

/-! ### Numbers that are read -/

theorem mem_numbers_grouped {x : Float} {repetitions : List Repetition}
    (h : x ∈ (grouped t repetitions).numbers) :
    x ∈ t.numbers ∨ ∃ next ∈ repetitions, x ∈ next.formula.numbers := by
  induction repetitions generalizing t with
  | nil => exact .inl h
  | cons next others ih =>
    rcases ih h with first | ⟨later, member, within⟩
    · rcases List.mem_append.mp first with left | right
      · exact .inl left
      · exact .inr ⟨next, List.mem_cons_self, right⟩
    · exact .inr ⟨later, List.mem_cons_of_mem _ member, within⟩

/-- The numbers of a formula are among its tokens. -/
theorem Yields.exists_token {used : List (Placed Token)} (yields : Yields phrase t used)
    {x : Float} (h : x ∈ t.numbers) : ∃ p, ⟨.number x, p⟩ ∈ used := by
  induction yields with
  | chain production repetitions _ _ _ ihFirst ihOperand =>
    rcases mem_numbers_grouped h with first | ⟨next, member, within⟩
    · obtain ⟨p, used⟩ := ihFirst first
      exact ⟨p, List.mem_append_left _ used⟩
    · obtain ⟨p, used⟩ := ihOperand next member within
      refine ⟨p, List.mem_append_right _ (List.mem_flatMap.mpr ⟨next, member, ?_⟩)⟩
      exact List.mem_cons_of_mem _ used
  | minus _ _ ih | plus _ _ ih =>
    obtain ⟨p, used⟩ := ih h
    exact ⟨p, List.mem_cons_of_mem _ used⟩
  | power _ ih | base _ ih => exact ih h
  | exponent _ _ _ ihBase ihExponent =>
    rcases List.mem_append.mp h with left | right
    · obtain ⟨p, used⟩ := ihBase left
      exact ⟨p, List.mem_append_left _ used⟩
    · obtain ⟨p, used⟩ := ihExponent right
      exact ⟨p, List.mem_append_right _ (List.mem_cons_of_mem _ used)⟩
  | number y p =>
    obtain rfl := List.mem_singleton.mp h
    exact ⟨p, List.mem_cons_self⟩
  | index => cases h
  | call _ _ _ _ _ ih | parentheses _ _ _ ih =>
    obtain ⟨p, used⟩ := ih h
    exact ⟨p, by simp [used]⟩

theorem numberPart_cons {c : Char} (begins : c.isDigit = true ∨ c = '.') (following : List Char) :
    Token.numberPart (c :: following) = [] ∨
      ∃ more, Token.numberPart (c :: following) = c :: more := by
  rcases begins with digit | rfl
  · exact .inr (by simp [Token.numberPart, digit])
  · have point : Char.isDigit '.' = false := rfl
    by_cases none : following.takeWhile Char.isDigit = []
    · exact .inl (by simp [Token.numberPart, Token.fractionPart, point, none])
    · exact .inr (by simp [Token.numberPart, Token.fractionPart, point, none])

/-- The number of a token is the float of a decimal. -/
theorem exists_decimal {c : Char} {following : List Char} {x : Float} {more : Nat}
    (started : Token.start? c following = some (.number x, more)) :
    ∃ d : Number.Decimal, x = d.toFloat := by
  unfold Token.start? at started
  split at started
  next => cases started
  next =>
    split at started
    next begins =>
      have begins : c.isDigit = true ∨ c = '.' := by simpa using begins
      simp only [Option.map_eq_some_iff, Prod.mk.injEq] at started
      obtain ⟨y, literal, same, -⟩ := started
      cases same
      rcases numberPart_cons begins following with empty | ⟨others, spelled⟩
      · rw [empty] at literal
        cases literal
      · rw [spelled, Number.number?_cons begins, Option.map_eq_some_iff] at literal
        obtain ⟨d, -, value⟩ := literal
        exact ⟨d, value.symm⟩
    next => split at started <;> cases started

/-- The canonical text of a formula is read as the formula, up to places, if its numbers are finite
and have no sign. So it has the same value at every index and the same canonical text. The numbers
that are read have no sign, and they are finite but for the infinity. -/
theorem reads_back :
    (∀ t : Formula, (∀ x ∈ t.numbers, x.isFinite = true ∧ Number.isNegative x = false) →
      ∃ u, Formula.read t.text.toList = .ok u ∧ u.bare = t.bare ∧
        (∀ k, u.evaluate k = t.evaluate k) ∧ u.text = t.text) ∧
    ∀ text t, Formula.read text = .ok t → ∀ x ∈ t.numbers,
      Number.isNegative x = false ∧ (x.isFinite = true ∨ x = 1.0 / 0.0) := by
  refine ⟨fun t finite => ?_, fun text t read x member => ?_⟩
  · obtain ⟨u, read, alike⟩ := (prints_text finite).exists_read
    refine ⟨u, read, alike, fun k => ?_, ?_⟩
    · rw [← Formula.evaluate_bare, alike, Formula.evaluate_bare]
    · rw [← Formula.text_bare, alike, Formula.text_bare]
  · obtain ⟨found, lexed, yields⟩ := exists_of_read read
    obtain ⟨p, used⟩ := yields.exists_token member
    obtain ⟨c, following, more, started⟩ := (tokensOrStray_pieces.mp lexed).exists_start used
    obtain ⟨d, rfl⟩ := exists_decimal started
    exact d.toFloat_unsigned

/-- The factor `-2.5 ^ k` keeps its sign in front, and its power gets parentheses. -/
theorem reads_back_signed_power :
    let x := Float.ofBits 0x4004000000000000
    let t : Formula := .binary (.negation (.binary (.number x 2) .pow (.index 6) 5) 1) .mul
      (.index 8) 7
    t.text = "-(2.5 ^ k) * k" ∧
      ∃ u, Formula.read t.text.toList = .ok u ∧ u.bare = t.bare ∧
        (∀ k, u.evaluate k = t.evaluate k) ∧ u.text = t.text ∧ x ∈ u.numbers ∧
        Number.isNegative x = false ∧ (x.isFinite = true ∨ x = 1.0 / 0.0) := by
  intro x t
  have listed : x ∈ t.numbers := List.mem_cons_self
  have finite : ∀ y ∈ t.numbers, y.isFinite = true ∧ Number.isNegative y = false := by
    intro y member
    obtain rfl : y = x := List.mem_singleton.mp member
    decide +kernel
  obtain ⟨u, read, alike, values, printed⟩ := reads_back.1 t finite
  have listed : x ∈ u.numbers := by
    rw [← Formula.numbers_bare, alike, Formula.numbers_bare]
    exact listed
  exact ⟨by decide +kernel, u, read, alike, values, printed, listed, reads_back.2 _ u read x listed⟩

end DiscreteMath.Sequence
