import DiscreteMath.Proofs.Result
import DiscreteMath.Proofs.Text.Pieces
import DiscreteMath.Sequence.Reading

/-!
# The grammar of sequence formulas

* `sum := product ((+|-) product)*`, `product := unary ((*|/|%) unary)*`
* `unary := (-|+) unary | power`
* `power := primary (^ unary)?`
* `primary := number | k | function ( sum ) | ( sum )`

Repetitions group to the left, and a plus in front of a factor leaves no node. The reader accepts
exactly the sums.

## Main definitions

* `Yields` — the tokens are a phrase, and the formula is its tree.
* `Stops` — the tokens do not go on with an operation that belongs to a phrase.
-/

namespace DiscreteMath.Sequence

open Text Text.Parsed

inductive Phrase where
  | sum | product | unary | power | primary
  deriving DecidableEq

/-- The productions `phrase := operand (operation operand)*`. -/
inductive Repeats : Phrase → List Operation → Phrase → Prop
  | sum : Repeats .sum [.add, .sub] .product
  | product : Repeats .product [.mul, .div, .rem] .unary

structure Repetition where
  operation : Operation
  position : Nat
  formula : Formula
  operand : List (Placed Token)

def grouped (first : Formula) (repetitions : List Repetition) : Formula :=
  repetitions.foldl (fun left next => .binary left next.operation next.formula next.position) first

def repeated (repetitions : List Repetition) : List (Placed Token) :=
  repetitions.flatMap fun next => ⟨.operation next.operation, next.position⟩ :: next.operand

/-- The tokens are a phrase with the formula as its tree. -/
inductive Yields : Phrase → Formula → List (Placed Token) → Prop
  | chain {phrase operand : Phrase} {operations : List Operation}
      (production : Repeats phrase operations operand) (repetitions : List Repetition) {t : Formula}
      {first : List (Placed Token)} :
      Yields operand t first →
      (∀ next ∈ repetitions, next.operation ∈ operations) →
      (∀ next ∈ repetitions, Yields operand next.formula next.operand) →
      Yields phrase (grouped t repetitions) (first ++ repeated repetitions)
  | minus (p : Nat) {t : Formula} {body : List (Placed Token)} :
      Yields .unary t body → Yields .unary (.negation t p) (⟨.operation .sub, p⟩ :: body)
  | plus (p : Nat) {t : Formula} {body : List (Placed Token)} :
      Yields .unary t body → Yields .unary t (⟨.operation .add, p⟩ :: body)
  | power {t : Formula} {tokens : List (Placed Token)} :
      Yields .power t tokens → Yields .unary t tokens
  | base {t : Formula} {tokens : List (Placed Token)} :
      Yields .primary t tokens → Yields .power t tokens
  | exponent (p : Nat) {l r : Formula} {first second : List (Placed Token)} :
      Yields .primary l first → Yields .unary r second →
      Yields .power (.binary l .pow r p) (first ++ ⟨.operation .pow, p⟩ :: second)
  | number (x : Float) (p : Nat) : Yields .primary (.number x p) [⟨.number x, p⟩]
  | index (p : Nat) : Yields .primary (.index p) [⟨.name indexName, p⟩]
  | call (f : Function) (p o q : Nat) {t : Formula} {inner : List (Placed Token)} :
      Yields .sum t inner →
      Yields .primary (.call f t p) (⟨.name f.name, p⟩ :: ⟨.opening, o⟩ :: inner ++ [⟨.closing, q⟩])
  | parentheses (p q : Nat) {t : Formula} {inner : List (Placed Token)} :
      Yields .sum t inner → Yields .primary t (⟨.opening, p⟩ :: inner ++ [⟨.closing, q⟩])

/-! ### Levels and names -/

namespace Phrase

def binding : Phrase → Nat
  | sum => 1
  | product => 2
  | unary => 3
  | power => 4
  | primary => 5

def tighter : Phrase → Phrase
  | sum => product
  | product => unary
  | unary => power
  | power | primary => primary

theorem binding_tighter {looser phrase : Phrase} (le : looser.binding ≤ phrase.binding)
    (other : phrase ≠ looser) : looser.binding < looser.tighter.binding ∧
      looser.tighter.binding ≤ phrase.binding := by
  revert le other
  cases looser <;> cases phrase <;> decide

end Phrase

namespace Level

def phrase : Level → Phrase
  | sum => .sum
  | product => .product

def operations : Level → List Operation
  | sum => [.add, .sub]
  | product => [.mul, .div, .rem]

def operand : Level → Phrase
  | sum => .product
  | product => .unary

theorem repeats (l : Level) : Repeats l.phrase l.operations l.operand := by
  cases l with
  | sum => exact .sum
  | product => exact .product

theorem mem_operations {l : Level} {op : Operation} :
    op ∈ l.operations ↔ ofOperation? op = some l := by
  cases l <;> cases op <;> decide

end Level

theorem Repeats.exists_level {phrase operand : Phrase} {operations : List Operation}
    (production : Repeats phrase operations operand) :
    ∃ l : Level, phrase = l.phrase ∧ operations = l.operations ∧ operand = l.operand := by
  cases production with
  | sum => exact ⟨.sum, rfl, rfl, rfl⟩
  | product => exact ⟨.product, rfl, rfl, rfl⟩

theorem ofName?_eq_some {name : String} {f : Function} :
    Function.ofName? name = some f ↔ name = f.name := by
  constructor
  · intro found
    have same := List.find?_some found
    exact (beq_iff_eq.mp same).symm
  · rintro rfl
    cases f <;> decide

theorem name_ne_indexName (f : Function) : f.name ≠ indexName := by
  cases f <;> decide

/-! ### The readers, without the bounds -/

variable (stop : Nat)

def readAt (phrase : Phrase) (tokens : List (Placed Token)) :
    Except ReadError (Parsed Token Formula tokens.length) :=
  match phrase with
  | .sum => readLevel stop .sum tokens
  | .product => readLevel stop .product tokens
  | .unary => readUnary stop tokens
  | .power => readPower stop tokens
  | .primary => readPrimary stop tokens

theorem readAt_phrase (l : Level) (tokens : List (Placed Token)) :
    readAt stop l.phrase tokens = readLevel stop l tokens := by
  cases l <;> rfl

theorem readOperand_eq (l : Level) (tokens : List (Placed Token)) :
    readOperand stop l tokens = readAt stop l.operand tokens := by
  cases l <;> rw [readOperand] <;> rfl

theorem outcome_readLevel (l : Level) (tokens : List (Placed Token)) :
    outcome (readLevel stop l tokens) = (outcome (readAt stop l.operand tokens)).bind
      fun (first, rest) => outcome (readChain stop l first rest) := by
  rw [readLevel, readOperand_eq]
  cases readAt stop l.operand tokens with
  | error e => rfl
  | ok first =>
    simp only [bind, Except.bind, outcome_ok]
    cases readChain stop l first.value first.rest <;> rfl

theorem outcome_readChain_more {l : Level} {op : Operation} (h : op ∈ l.operations)
    (left : Formula) (p : Nat) (rest : List (Placed Token)) :
    outcome (readChain stop l left (⟨.operation op, p⟩ :: rest)) =
      (outcome (readAt stop l.operand rest)).bind
        fun (right, rest) => outcome (readChain stop l (.binary left op right p) rest) := by
  rw [readChain, if_pos (Level.mem_operations.mp h), readOperand_eq]
  cases readAt stop l.operand rest with
  | error e => rfl
  | ok right =>
    simp only [bind, Except.bind, outcome_ok]
    cases readChain stop l (.binary left op right.value p) right.rest <;> rfl

theorem outcome_readChain_end {l : Level} {tokens : List (Placed Token)}
    (other : ∀ op p rest, tokens = ⟨.operation op, p⟩ :: rest → op ∉ l.operations)
    (left : Formula) : outcome (readChain stop l left tokens) = .ok (left, tokens) := by
  rw [readChain.eq_def]
  split
  next op p rest =>
    rw [if_neg (fun same => other op p rest rfl (Level.mem_operations.mpr same))]
    rfl
  next => rfl

theorem outcome_readUnary_minus (p : Nat) (rest : List (Placed Token)) :
    outcome (readUnary stop (⟨.operation .sub, p⟩ :: rest)) =
      (outcome (readUnary stop rest)).map fun (body, rest) => (.negation body p, rest) := by
  rw [readUnary]
  cases readUnary stop rest <;> rfl

theorem outcome_readUnary_plus (p : Nat) (rest : List (Placed Token)) :
    outcome (readUnary stop (⟨.operation .add, p⟩ :: rest)) = outcome (readUnary stop rest) := by
  rw [readUnary]
  cases readUnary stop rest <;> rfl

theorem readUnary_power {tokens : List (Placed Token)}
    (noMinus : ∀ p rest, tokens ≠ ⟨.operation .sub, p⟩ :: rest)
    (noPlus : ∀ p rest, tokens ≠ ⟨.operation .add, p⟩ :: rest) :
    readUnary stop tokens = readPower stop tokens := by
  rw [readUnary.eq_def]
  split
  next p rest => exact absurd rfl (noMinus p rest)
  next p rest => exact absurd rfl (noPlus p rest)
  next => rfl

theorem outcome_readPower (tokens : List (Placed Token)) :
    outcome (readPower stop tokens) = (outcome (readPrimary stop tokens)).bind fun
      | (base, ⟨.operation .pow, p⟩ :: rest) =>
        (outcome (readUnary stop rest)).map fun (exponent, rest) =>
          (.binary base .pow exponent p, rest)
      | (base, rest) => .ok (base, rest) := by
  rw [readPower]
  cases readPrimary stop tokens with
  | error e => rfl
  | ok base =>
    obtain ⟨value, rest, shorter⟩ := base
    cases rest with
    | nil => rfl
    | cons next rest =>
      obtain ⟨token, p⟩ := next
      cases token with
      | operation op =>
        cases op with
        | pow =>
          simp only [bind, Except.bind, Parsed.next?, outcome_ok]
          cases readUnary stop rest <;> rfl
        | _ => rfl
      | _ => rfl

theorem outcome_readGroup (opened : Nat) (tokens : List (Placed Token)) :
    outcome (readGroup stop opened tokens) = (outcome (readLevel stop .sum tokens)).bind fun
      | (inner, ⟨.closing, _⟩ :: rest) => .ok (inner, rest)
      | _ => .error (.unclosed opened) := by
  rw [readGroup]
  cases readLevel stop .sum tokens with
  | error e => rfl
  | ok inner =>
    obtain ⟨value, rest, shorter⟩ := inner
    cases rest with
    | nil => rfl
    | cons next rest =>
      obtain ⟨token, q⟩ := next
      cases token <;> rfl

theorem outcome_readPrimary_number (x : Float) (p : Nat) (rest : List (Placed Token)) :
    outcome (readPrimary stop (⟨.number x, p⟩ :: rest)) = .ok (.number x p, rest) := by
  rw [readPrimary]
  rfl

theorem outcome_readPrimary_index (p : Nat) (rest : List (Placed Token)) :
    outcome (readPrimary stop (⟨.name indexName, p⟩ :: rest)) = .ok (.index p, rest) := by
  rw [readPrimary, if_pos rfl]
  rfl

theorem outcome_readPrimary_call (f : Function) (p o : Nat) (rest : List (Placed Token)) :
    outcome (readPrimary stop (⟨.name f.name, p⟩ :: ⟨.opening, o⟩ :: rest)) =
      (outcome (readGroup stop o rest)).map fun (argument, rest) => (.call f argument p, rest) := by
  rw [readPrimary, if_neg (name_ne_indexName f), ofName?_eq_some.mpr rfl]
  simp only
  cases readGroup stop o rest <;> rfl

theorem outcome_readPrimary_unknown {letters : String} {rest : List (Placed Token)}
    (noIndex : letters ≠ indexName)
    (noCall : ∀ f o inside, Function.ofName? letters = some f → rest ≠ ⟨.opening, o⟩ :: inside)
    (p : Nat) :
    outcome (readPrimary stop (⟨.name letters, p⟩ :: rest)) = .error (.unknownName letters p) := by
  rw [readPrimary, if_neg noIndex]
  cases named : Function.ofName? letters with
  | none => rfl
  | some f =>
    cases rest with
    | nil => rfl
    | cons next inside =>
      obtain ⟨token, o⟩ := next
      cases token with
      | opening => exact absurd rfl (noCall f o inside named)
      | _ => rfl

theorem outcome_readPrimary_opening (p : Nat) (rest : List (Placed Token)) :
    outcome (readPrimary stop (⟨.opening, p⟩ :: rest)) = outcome (readGroup stop p rest) := by
  rw [readPrimary]
  cases readGroup stop p rest <;> rfl

/-! ### What is read is a phrase -/

variable {l : Level} {phrase : Phrase} {s t : Formula} {first second used : List (Placed Token)}

theorem Yields.single (l : Level) (yields : Yields l.operand t used) : Yields l.phrase t used := by
  have whole := Yields.chain l.repeats [] yields nofun nofun
  simpa [grouped, repeated] using whole

theorem Yields.of_tighter (yields : Yields phrase.tighter t used) :
    Yields phrase t used := by
  cases phrase with
  | sum => exact .single .sum yields
  | product => exact .single .product yields
  | unary => exact .power yields
  | power => exact .base yields
  | primary => exact yields

/-- A phrase is every looser phrase. -/
theorem Yields.loosen (yields : Yields phrase t used)
    (looser : Phrase) (le : looser.binding ≤ phrase.binding) : Yields looser t used :=
  if same : phrase = looser then same ▸ yields
  else (yields.loosen looser.tighter (Phrase.binding_tighter le same).2).of_tighter
termination_by phrase.binding - looser.binding
decreasing_by
  have := Phrase.binding_tighter le same
  omega

/-- One more repetition. -/
theorem Yields.append {op : Operation} (h : op ∈ l.operations) (p : Nat)
    (left : Yields l.phrase s first) (right : Yields l.operand t second) :
    Yields l.phrase (.binary s op t p) (first ++ ⟨.operation op, p⟩ :: second) := by
  generalize same : l.phrase = phrase at left
  cases left with
  | @chain _ operand operations production repetitions t' front start listed operands =>
    obtain ⟨l', rfl, rfl, rfl⟩ := production.exists_level
    obtain rfl : l = l' := by cases l <;> cases l' <;> first | rfl | cases same
    have whole := Yields.chain l.repeats (repetitions ++ [⟨op, p, t, second⟩]) start
      (fun next member => ?_) fun next member => ?_
    · simpa [grouped, repeated] using whole
    · rcases List.mem_append.mp member with member | member
      · exact listed next member
      · rwa [List.mem_singleton.mp member]
    · rcases List.mem_append.mp member with member | member
      · exact operands next member
      · rwa [List.mem_singleton.mp member]
  | minus | plus | power | base | exponent | number | index | call | parentheses =>
    cases l <;> cases same

/-- What a reader has read off the front of the tokens is a phrase with the formula as its tree. -/
theorem yields_of_read (stop : Nat) :
    (∀ l tokens t rest, outcome (readLevel stop l tokens) = .ok (t, rest) →
        ∃ used, tokens = used ++ rest ∧ Yields l.phrase t used) ∧
      (∀ l left tokens before t rest, Yields l.phrase left before →
        outcome (readChain stop l left tokens) = .ok (t, rest) →
        ∃ used, tokens = used ++ rest ∧ Yields l.phrase t (before ++ used)) ∧
      (∀ l tokens t rest, outcome (readOperand stop l tokens) = .ok (t, rest) →
        ∃ used, tokens = used ++ rest ∧ Yields l.operand t used) ∧
      (∀ tokens t rest, outcome (readUnary stop tokens) = .ok (t, rest) →
        ∃ used, tokens = used ++ rest ∧ Yields .unary t used) ∧
      (∀ tokens t rest, outcome (readPower stop tokens) = .ok (t, rest) →
        ∃ used, tokens = used ++ rest ∧ Yields .power t used) ∧
      (∀ tokens t rest, outcome (readPrimary stop tokens) = .ok (t, rest) →
        ∃ used, tokens = used ++ rest ∧ Yields .primary t used) ∧
      ∀ opened tokens t rest, outcome (readGroup stop opened tokens) = .ok (t, rest) →
        ∃ inner q, tokens = inner ++ ⟨.closing, q⟩ :: rest ∧ Yields .sum t inner := by
  apply readLevel.mutual_induct
  case case1 =>
    intro l tokens ihOperand ihChain t rest read
    rw [outcome_readLevel] at read
    obtain ⟨⟨s, others⟩, first, read⟩ := bind_eq_ok read
    obtain ⟨parsed, -, rfl, rfl⟩ := outcome_eq_ok first
    rw [← readOperand_eq] at first
    obtain ⟨used, split, yields⟩ := ihOperand _ _ first
    obtain ⟨more, split', yields'⟩ := ihChain parsed used t rest (.single l yields) read
    exact ⟨used ++ more, by rw [split, split', List.append_assoc], yields'⟩
  case case2 =>
    intro l left op p tokens listed _ ihOperand ihChain before t rest yields read
    have listed := Level.mem_operations.mpr listed
    rw [outcome_readChain_more stop listed] at read
    obtain ⟨⟨s, others⟩, second, read⟩ := bind_eq_ok read
    obtain ⟨parsed, -, rfl, rfl⟩ := outcome_eq_ok second
    rw [← readOperand_eq] at second
    obtain ⟨used, split, yields'⟩ := ihOperand _ _ second
    obtain ⟨more, split', yields''⟩ :=
      ihChain parsed _ t rest (yields.append listed p yields') read
    refine ⟨⟨.operation op, p⟩ :: used ++ more, by simp [split, split'], ?_⟩
    simpa using yields''
  case case3 =>
    intro l left op p tokens other before t rest yields read
    rw [outcome_readChain_end stop (fun op' p' rest' same => ?_)] at read
    · cases read
      exact ⟨[], rfl, by rwa [List.append_nil]⟩
    · cases same
      rwa [Level.mem_operations]
  case case4 =>
    intro l left tokens other before t rest yields read
    rw [outcome_readChain_end stop fun op p rest same => (other op p rest same).elim] at read
    cases read
    exact ⟨[], rfl, by rwa [List.append_nil]⟩
  case case5 =>
    intro tokens ih t rest read
    rw [readOperand_eq] at read
    exact ih t rest read
  case case6 =>
    intro tokens ih t rest read
    rw [readOperand_eq] at read
    exact ih t rest read
  case case7 =>
    intro p tokens ih t rest read
    rw [outcome_readUnary_minus] at read
    obtain ⟨⟨body, others⟩, inner, result⟩ := map_eq_ok read
    cases result
    obtain ⟨used, rfl, yields⟩ := ih body _ inner
    exact ⟨_ :: used, rfl, .minus p yields⟩
  case case8 =>
    intro p tokens ih t rest read
    rw [outcome_readUnary_plus] at read
    obtain ⟨used, rfl, yields⟩ := ih t rest read
    exact ⟨_ :: used, rfl, .plus p yields⟩
  case case9 =>
    intro tokens noMinus noPlus ih t rest read
    rw [readUnary_power stop noMinus noPlus] at read
    obtain ⟨used, split, yields⟩ := ih t rest read
    exact ⟨used, split, .power yields⟩
  case case10 =>
    intro tokens ihPrimary ihUnary t rest read
    rw [outcome_readPower] at read
    obtain ⟨⟨base, others⟩, first, read⟩ := bind_eq_ok read
    obtain ⟨used, split, yields⟩ := ihPrimary _ _ first
    split at read
    next base' p others' same =>
      cases same
      obtain ⟨⟨exponent, others⟩, second, result⟩ := map_eq_ok read
      cases result
      obtain ⟨parsed, -, -, left⟩ := outcome_eq_ok first
      have shorter := parsed.shorter
      rw [left, List.length_cons] at shorter
      obtain ⟨more, rfl, yields'⟩ :=
        ihUnary (⟨base, others', Nat.lt_of_succ_lt shorter⟩) exponent _ second
      exact ⟨used ++ ⟨.operation .pow, p⟩ :: more, by simp [split], .exponent p yields yields'⟩
    next base' others' _ same =>
      cases same
      cases read
      exact ⟨used, split, .base yields⟩
  case case11 =>
    intro t rest read
    rw [readPrimary] at read
    cases read
  case case12 =>
    intro x p tokens t rest read
    rw [outcome_readPrimary_number] at read
    cases read
    exact ⟨[_], rfl, .number x p⟩
  case case13 =>
    intro p tokens t rest read
    rw [outcome_readPrimary_index] at read
    cases read
    exact ⟨[_], rfl, .index p⟩
  case case14 =>
    intro letters p _ f o tokens named ih t rest read
    obtain rfl := ofName?_eq_some.mp named
    rw [outcome_readPrimary_call] at read
    obtain ⟨⟨argument, others⟩, group, result⟩ := map_eq_ok read
    cases result
    obtain ⟨inner, q, rfl, yields⟩ := ih argument _ group
    exact ⟨_ :: _ :: inner ++ [⟨.closing, q⟩], by simp, .call f p o q yields⟩
  case case15 =>
    intro letters p tokens noIndex noCall t rest read
    rw [outcome_readPrimary_unknown stop noIndex fun f o inside named same =>
      noCall f o inside named same] at read
    cases read
  case case16 =>
    intro o tokens ih t rest read
    rw [outcome_readPrimary_opening] at read
    obtain ⟨inner, q, rfl, yields⟩ := ih t rest read
    exact ⟨_ :: inner ++ [⟨.closing, q⟩], by simp, .parentheses o q yields⟩
  case case17 =>
    intro token p tokens noNumber noName noOpening t rest read
    cases token with
    | number x => exact (noNumber x rfl).elim
    | name letters => exact (noName letters rfl).elim
    | opening => exact (noOpening rfl).elim
    | operation op =>
      rw [readPrimary] at read <;> simp_all
    | closing =>
      rw [readPrimary] at read <;> simp_all
  case case18 =>
    intro o tokens ih t rest read
    rw [outcome_readGroup] at read
    obtain ⟨⟨inner, others⟩, found, read⟩ := bind_eq_ok read
    split at read
    next q others same =>
      cases same
      cases read
      obtain ⟨used, split, yields⟩ := ih _ _ found
      exact ⟨used, q, split, yields⟩
    next => cases read

/-! ### What is a phrase is read -/

namespace Phrase

/-- The binding strength from which on an operation belongs to the phrase. -/
def strength : Phrase → Nat
  | sum => 1
  | product => 2
  | unary | power => 4
  | primary => 5

end Phrase

def Stops (phrase : Phrase) (tokens : List (Placed Token)) : Prop :=
  ∀ op p rest, tokens = ⟨.operation op, p⟩ :: rest → op.precedence < phrase.strength

theorem stops_closing (phrase : Phrase) (q : Nat) (rest : List (Placed Token)) :
    Stops phrase (⟨.closing, q⟩ :: rest) := nofun

theorem stops_nil (phrase : Phrase) : Stops phrase [] := nofun

theorem Stops.operand {rest : List (Placed Token)} (h : Stops l.phrase rest) :
    Stops l.operand rest := by
  intro op p others same
  have := h op p others same
  cases l <;> simp only [Level.phrase, Level.operand, Phrase.strength] at * <;> omega

theorem stops_operation {op : Operation} (h : op ∈ l.operations) (p : Nat)
    (rest : List (Placed Token)) : Stops l.operand (⟨.operation op, p⟩ :: rest) := by
  intro op' p' rest' same
  cases same
  revert h
  cases l <;> cases op <;> decide

theorem Stops.notMem {rest : List (Placed Token)} (h : Stops l.phrase rest) :
    ∀ op p others, rest = ⟨.operation op, p⟩ :: others → op ∉ l.operations := by
  intro op p others same listed
  have weak := h op p others same
  revert listed weak
  cases l <;> cases op <;> decide

/-- A chain is read up to where it stops, if its operands are. -/
theorem outcome_readChain_repeated (stop : Nat) {repetitions : List Repetition}
    (listed : ∀ next ∈ repetitions, next.operation ∈ l.operations)
    (operands : ∀ next ∈ repetitions, ∀ rest, Stops l.operand rest →
      outcome (readAt stop l.operand (next.operand ++ rest)) = .ok (next.formula, rest))
    {rest : List (Placed Token)} (stops : Stops l.phrase rest) (left : Formula) :
    Stops l.operand (repeated repetitions ++ rest) ∧
      outcome (readChain stop l left (repeated repetitions ++ rest)) =
        .ok (grouped left repetitions, rest) := by
  induction repetitions generalizing left with
  | nil => exact ⟨stops.operand, outcome_readChain_end stop stops.notMem left⟩
  | cons next others ih =>
    obtain ⟨listed, listed'⟩ := List.forall_mem_cons.mp listed
    obtain ⟨operand, operands'⟩ := List.forall_mem_cons.mp operands
    obtain ⟨stops', later⟩ :=
      ih listed' operands' (.binary left next.operation next.formula next.position)
    have split : repeated (next :: others) ++ rest =
        ⟨.operation next.operation, next.position⟩ ::
          (next.operand ++ (repeated others ++ rest)) := by
      simp [repeated]
    rw [split]
    refine ⟨stops_operation listed _ _, ?_⟩
    rw [outcome_readChain_more stop listed, operand _ stops']
    exact later

/-- A power does not begin with an operation. -/
theorem Yields.exists_head (yields : Yields phrase t used)
    (tight : phrase = .power ∨ phrase = .primary) :
    ∃ x more, used = x :: more ∧ ∀ op, x.value ≠ .operation op := by
  induction yields with
  | chain production => rcases tight with rfl | rfl <;> cases production
  | minus | plus | power => rcases tight with tight | tight <;> cases tight
  | base _ ih => exact ih (.inr rfl)
  | exponent p _ _ ih =>
    obtain ⟨x, more, rfl, other⟩ := ih (.inr rfl)
    exact ⟨x, _, rfl, other⟩
  | number | index | call | parentheses => exact ⟨_, _, rfl, nofun⟩

/-- A phrase is read off the front of the tokens if they do not go on with an operation of it. -/
theorem Yields.outcome_readAt (yields : Yields phrase t used) (stop : Nat) :
    ∀ rest, Stops phrase rest → outcome (readAt stop phrase (used ++ rest)) = .ok (t, rest) := by
  have group {t : Formula} {inner : List (Placed Token)}
      (sum : ∀ rest, Stops .sum rest →
        outcome (readAt stop .sum (inner ++ rest)) = .ok (t, rest))
      (o q : Nat) (rest : List (Placed Token)) :
      outcome (readGroup stop o (inner ++ ⟨.closing, q⟩ :: rest)) = .ok (t, rest) := by
    have inside : outcome (readLevel stop .sum (inner ++ ⟨.closing, q⟩ :: rest)) =
        .ok (t, ⟨.closing, q⟩ :: rest) := sum _ (stops_closing .sum q rest)
    rw [outcome_readGroup, inside]
    rfl
  induction yields with
  | @chain _ _ _ production repetitions t first _ listed _ start operands =>
    intro rest stops
    obtain ⟨l, rfl, rfl, rfl⟩ := production.exists_level
    obtain ⟨stops', later⟩ := outcome_readChain_repeated stop listed operands stops t
    rw [readAt_phrase, outcome_readLevel, List.append_assoc, start _ stops']
    exact later
  | minus p _ ih =>
    intro rest stops
    have body : outcome (readUnary stop (_ ++ rest)) = _ := ih rest stops
    change outcome (readUnary stop (_ :: (_ ++ rest))) = _
    rw [outcome_readUnary_minus, body]
    rfl
  | plus p _ ih =>
    intro rest stops
    change outcome (readUnary stop (_ :: (_ ++ rest))) = _
    rw [outcome_readUnary_plus]
    exact ih rest stops
  | power yields ih =>
    intro rest stops
    obtain ⟨x, more, rfl, other⟩ := yields.exists_head (.inl rfl)
    have unsigned (op : Operation) (p : Nat) (others : List (Placed Token)) :
        x :: more ++ rest ≠ ⟨.operation op, p⟩ :: others :=
      fun same => other op (congrArg Placed.value (List.cons.inj same).1)
    change outcome (readUnary stop _) = _
    rw [readUnary_power stop (unsigned .sub) (unsigned .add)]
    exact ih rest stops
  | base _ ih =>
    intro rest stops
    have base : outcome (readPrimary stop (_ ++ rest)) = _ := ih rest fun op p others same =>
      Nat.lt_succ_of_lt (stops op p others same)
    change outcome (readPower stop _) = _
    rw [outcome_readPower, base, Except.bind]
    split
    next b p others same =>
      cases same
      exact absurd (stops .pow p others rfl) (by decide)
    next same => cases same; rfl
  | @exponent p l r first second _ _ ihBase ihExponent =>
    intro rest stops
    have tight : Stops .primary (⟨.operation .pow, p⟩ :: (second ++ rest)) := by
      intro op q others same
      cases same
      decide
    have base : outcome (readPrimary stop (first ++ _)) = _ := ihBase _ tight
    have exponent : outcome (readUnary stop (second ++ rest)) = _ := ihExponent rest stops
    change outcome (readPower stop _) = _
    rw [List.append_assoc, List.cons_append, outcome_readPower, base]
    simp only [Except.bind, exponent]
    rfl
  | number x p => exact fun rest _ => outcome_readPrimary_number stop x p rest
  | index p => exact fun rest _ => outcome_readPrimary_index stop p rest
  | call f p o q _ ih =>
    intro rest _
    change outcome (readPrimary stop (_ :: _ :: (_ ++ _ ++ rest))) = _
    rw [List.append_assoc, List.singleton_append, outcome_readPrimary_call, group ih]
    rfl
  | parentheses p q _ ih =>
    intro rest _
    change outcome (readPrimary stop (_ :: (_ ++ _ ++ rest))) = _
    rw [List.append_assoc, List.singleton_append, outcome_readPrimary_opening]
    exact group ih p q rest

/-! ### Reading a text -/

theorem exists_of_read {text : List Char} (read : Formula.read text = .ok t) :
    ∃ found, tokens text = .ok found ∧ Yields .sum t found := by
  obtain ⟨found, lexed, level⟩ := readWhole_eq_ok_iff.mp read
  obtain ⟨used, split, yields⟩ := (yields_of_read _).1 _ _ _ _ level
  exact ⟨found, lexed, by rwa [split, List.append_nil]⟩

theorem read_of_yields {text : List Char} {found : List (Placed Token)}
    (lexed : tokens text = .ok found) (yields : Yields .sum t found) :
    Formula.read text = .ok t := by
  have level : outcome (readLevel (text.length + 1) .sum (found ++ [])) = .ok (t, []) :=
    yields.outcome_readAt _ [] (stops_nil _)
  rw [List.append_nil] at level
  exact readWhole_eq_ok_iff.mpr ⟨found, lexed, level⟩

/-- A text is read as a formula exactly if all its tokens together are a sum with this tree. -/
theorem read_iff_sum {text : List Char} {t : Formula} :
    Formula.read text = .ok t ↔ ∃ found, tokens text = .ok found ∧ Yields .sum t found :=
  ⟨exists_of_read, fun ⟨_, lexed, yields⟩ => read_of_yields lexed yields⟩

/-- Powers group to the right, and a sign in front of a power covers all of it. -/
example : Formula.read "-k^k^-k".toList =
    .ok (.negation (.binary (.index 2) .pow
      (.binary (.index 4) .pow (.negation (.index 7) 6) 5) 3) 1) := by
  cbv

end DiscreteMath.Sequence
