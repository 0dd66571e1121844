import DiscreteMath.Proofs.Result
import DiscreteMath.Proofs.Text.Pieces
import DiscreteMath.Proposition.Reading

/-!
# The grammar of propositional formulas

A level is a connective, or `none` for the tightest one, that of negations. Of the binary
connectives, implication groups to the right and the others to the left. The reader accepts exactly
what the grammar derives.

## Main definitions

* `Derives` — the tokens derive the formula at a level.
* `Stops` — the tokens do not go on with a connective of a level.
-/

namespace DiscreteMath.Proposition

open Text Text.Parsed

/-- The tokens derive the formula at a level. -/
inductive Derives : Option Connective → Formula → List (Placed Token) → Prop
  | name (letters : String) (p : Nat) : Derives none (.atom letters p) [⟨.name letters, p⟩]
  | negation (p : Nat) {t : Formula} {body : List (Placed Token)} :
      Derives none t body → Derives none (.negation t p) (⟨.negation, p⟩ :: body)
  | parentheses (p q : Nat) {t : Formula} {inner : List (Placed Token)} :
      Derives (some .or) t inner → Derives none t (⟨.opening, p⟩ :: inner ++ [⟨.closing, q⟩])
  | operand {c : Connective} {t : Formula} {tokens : List (Placed Token)} :
      Derives c.tighter? t tokens → Derives (some c) t tokens
  | left {c : Connective} (other : c ≠ .implies) (p : Nat) {l r : Formula}
      {first second : List (Placed Token)} :
      Derives (some c) l first → Derives c.tighter? r second →
      Derives (some c) (.binary l c r p) (first ++ ⟨.connective c, p⟩ :: second)
  | right (p : Nat) {l r : Formula} {first second : List (Placed Token)} :
      Derives (Connective.tighter? .implies) l first → Derives (some .implies) r second →
      Derives (some .implies) (.binary l .implies r p)
        (first ++ ⟨.connective .implies, p⟩ :: second)

def readAt (stop : Nat) (level : Option Connective) (tokens : List (Placed Token)) :
    Except ReadError (Parsed Token Formula tokens.length) :=
  match level with
  | none => readUnary stop tokens
  | some c => readLevel stop c tokens

/-! ### The readers, without the bounds -/

variable (stop : Nat)

theorem outcome_readLevel (c : Connective) (tokens : List (Placed Token)) :
    outcome (readLevel stop c tokens) = (outcome (readOperand stop c tokens)).bind
      fun (first, rest) => outcome (readChain stop c first rest) := by
  rw [readLevel]
  cases readOperand stop c tokens with
  | error e => rfl
  | ok first =>
    simp only [bind, Except.bind, outcome_ok]
    cases readChain stop c first.value first.rest <;> rfl

theorem outcome_readOperand (c : Connective) (tokens : List (Placed Token)) :
    outcome (readOperand stop c tokens) = outcome (readAt stop c.tighter? tokens) := by
  rw [readOperand]
  split
  next d tighter =>
    change outcome (readLevel stop d tokens) = _
    rw [tighter]
    rfl
  next tightest =>
    change outcome (readUnary stop tokens) = _
    rw [tightest]
    rfl

theorem outcome_readChain_other {c d : Connective} (other : d ≠ c) (left : Formula) (p : Nat)
    (rest : List (Placed Token)) :
    outcome (readChain stop c left (⟨.connective d, p⟩ :: rest)) =
      .ok (left, ⟨.connective d, p⟩ :: rest) := by
  rw [readChain, if_pos other]
  rfl

theorem outcome_readChain_end {tokens : List (Placed Token)}
    (other : ∀ d p rest, tokens ≠ ⟨.connective d, p⟩ :: rest) (c : Connective) (left : Formula) :
    outcome (readChain stop c left tokens) = .ok (left, tokens) := by
  rw [readChain.eq_def]
  split
  next d p rest => exact absurd rfl (other d p rest)
  next => rfl

theorem outcome_readChain_implies (left : Formula) (p : Nat) (rest : List (Placed Token)) :
    outcome (readChain stop .implies left (⟨.connective .implies, p⟩ :: rest)) =
      (outcome (readLevel stop .implies rest)).map
        fun (right, rest) => (.binary left .implies right p, rest) := by
  rw [readChain, if_neg (fun other => other rfl), if_pos rfl]
  cases readLevel stop .implies rest <;> rfl

theorem outcome_readChain_same {c : Connective} (other : c ≠ .implies) (left : Formula) (p : Nat)
    (rest : List (Placed Token)) :
    outcome (readChain stop c left (⟨.connective c, p⟩ :: rest)) =
      (outcome (readOperand stop c rest)).bind
        fun (right, rest) => outcome (readChain stop c (.binary left c right p) rest) := by
  rw [readChain, if_neg (fun other => other rfl), if_neg other]
  cases readOperand stop c rest with
  | error e => rfl
  | ok right =>
    simp only [bind, Except.bind, outcome_ok]
    cases readChain stop c (.binary left c right.value p) right.rest <;> rfl

theorem outcome_readUnary_negation (p : Nat) (rest : List (Placed Token)) :
    outcome (readUnary stop (⟨.negation, p⟩ :: rest)) =
      (outcome (readUnary stop rest)).map fun (body, rest) => (.negation body p, rest) := by
  rw [readUnary]
  cases readUnary stop rest <;> rfl

theorem outcome_readUnary_name (letters : String) (p : Nat) (rest : List (Placed Token)) :
    outcome (readUnary stop (⟨.name letters, p⟩ :: rest)) = .ok (.atom letters p, rest) := by
  rw [readUnary]
  rfl

theorem outcome_readUnary_opening (p : Nat) (rest : List (Placed Token)) :
    outcome (readUnary stop (⟨.opening, p⟩ :: rest)) =
      (outcome (readLevel stop .or rest)).bind fun
        | (inner, ⟨.closing, _⟩ :: rest) => .ok (inner, rest)
        | _ => .error (.unclosed p) := by
  rw [readUnary]
  cases readLevel stop .or rest with
  | error e => rfl
  | ok inner =>
    obtain ⟨value, rest, shorter⟩ := inner
    cases rest with
    | nil => rfl
    | cons next rest =>
      obtain ⟨token, q⟩ := next
      cases token <;> rfl

/-! ### What is read is derived -/

variable {stop}

/-- What a reader has read off the front of the tokens derives the formula. -/
theorem derives_of_read (stop : Nat) :
    (∀ c tokens t rest, outcome (readLevel stop c tokens) = .ok (t, rest) →
        ∃ used, tokens = used ++ rest ∧ Derives (some c) t used) ∧
      (∀ c l tokens before t rest, Derives (some c) l before →
        (c = .implies → Derives c.tighter? l before) →
        outcome (readChain stop c l tokens) = .ok (t, rest) →
        ∃ used, tokens = used ++ rest ∧ Derives (some c) t (before ++ used)) ∧
      (∀ c tokens t rest, outcome (readOperand stop c tokens) = .ok (t, rest) →
        ∃ used, tokens = used ++ rest ∧ Derives c.tighter? t used) ∧
      ∀ tokens t rest, outcome (readUnary stop tokens) = .ok (t, rest) →
        ∃ used, tokens = used ++ rest ∧ Derives none t used := by
  apply readLevel.mutual_induct
  case case1 =>
    intro c tokens ihOperand ihChain t rest read
    rw [outcome_readLevel] at read
    obtain ⟨⟨l, others⟩, first, read⟩ := bind_eq_ok read
    obtain ⟨parsed, -, rfl, rfl⟩ := outcome_eq_ok first
    obtain ⟨used, split, derives⟩ := ihOperand _ _ first
    obtain ⟨more, split', derives'⟩ :=
      ihChain parsed used t rest (.operand derives) (fun _ => derives) read
    exact ⟨used ++ more, by rw [split, split', List.append_assoc], derives'⟩
  case case2 =>
    intro c l d p tokens other before t rest derives _ read
    rw [outcome_readChain_other stop other] at read
    cases read
    exact ⟨[], rfl, by rwa [List.append_nil]⟩
  case case3 =>
    intro l d p tokens same _ ih before t rest _ derives read
    obtain rfl : d = .implies := Decidable.of_not_not same
    rw [outcome_readChain_implies] at read
    obtain ⟨⟨r, others⟩, second, result⟩ := map_eq_ok read
    cases result
    obtain ⟨used, rfl, derives'⟩ := ih r _ second
    exact ⟨_ :: used, rfl, .right p (derives rfl) derives'⟩
  case case4 =>
    intro c l d p tokens same other _ ihOperand ihChain before t rest derives _ read
    obtain rfl : d = c := Decidable.of_not_not same
    rw [outcome_readChain_same stop other] at read
    obtain ⟨⟨r, others⟩, second, read⟩ := bind_eq_ok read
    obtain ⟨parsed, -, rfl, rfl⟩ := outcome_eq_ok second
    obtain ⟨used, split, derives'⟩ := ihOperand _ _ second
    obtain ⟨more, split', derives''⟩ :=
      ihChain parsed _ t rest (.left other p derives derives') (fun same => absurd same other) read
    refine ⟨⟨.connective d, p⟩ :: used ++ more, by simp [split, split'], ?_⟩
    simpa using derives''
  case case5 =>
    intro c l tokens other before t rest derives _ read
    rw [outcome_readChain_end stop fun d p rest same => other d p rest same] at read
    cases read
    exact ⟨[], rfl, by rwa [List.append_nil]⟩
  case case6 =>
    intro c tokens d tighter _ ih t rest read
    rw [outcome_readOperand, tighter] at read
    rw [tighter]
    exact ih t rest read
  case case7 =>
    intro c tokens tightest _ ih t rest read
    rw [outcome_readOperand, tightest] at read
    rw [tightest]
    exact ih t rest read
  case case8 =>
    intro t rest read
    rw [readUnary] at read
    cases read
  case case9 =>
    intro p tokens ih t rest read
    rw [outcome_readUnary_negation] at read
    obtain ⟨⟨body, others⟩, inner, result⟩ := map_eq_ok read
    cases result
    obtain ⟨used, rfl, derives⟩ := ih body _ inner
    exact ⟨_ :: used, rfl, .negation p derives⟩
  case case10 =>
    intro letters p tokens t rest read
    rw [outcome_readUnary_name] at read
    cases read
    exact ⟨[_], rfl, .name letters p⟩
  case case11 =>
    intro p tokens ih t rest read
    rw [outcome_readUnary_opening] at read
    obtain ⟨⟨inner, others⟩, found, read⟩ := bind_eq_ok read
    split at read
    next q others same =>
      cases same
      cases read
      obtain ⟨used, rfl, derives⟩ := ih _ _ found
      refine ⟨⟨.opening, p⟩ :: used ++ [⟨.closing, q⟩], by simp, .parentheses p q derives⟩
    next => cases read
  case case12 =>
    intro token p tokens noNegation noName noOpening t rest read
    cases token with
    | negation => exact absurd rfl noNegation
    | name letters => exact absurd rfl (noName letters)
    | opening => exact absurd rfl noOpening
    | connective c =>
      rw [readUnary] at read <;> simp_all
    | closing =>
      rw [readUnary] at read <;> simp_all

/-! ### What is derived is read -/

/-- How many binary connectives bind at least as tightly as the level. -/
def strength : Option Connective → Nat
  | none => 0
  | some c => c.rank

theorem strength_tighter (c : Connective) : strength c.tighter? < c.rank := by
  cases c <;> decide

theorem le_strength_tighter {level : Option Connective} {c : Connective}
    (le : strength level ≤ strength (some c)) (other : level ≠ some c) :
    strength level ≤ strength c.tighter? := by
  revert le other
  rcases level with _ | _ | _ | _ | _ | _ <;> cases c <;> decide

/-- What derives a formula at a level derives it at every looser one. -/
theorem Derives.loosen {level : Option Connective} {t : Formula} {found : List (Placed Token)}
    (derives : Derives level t found) :
    (looser : Option Connective) → strength level ≤ strength looser → Derives looser t found
  | none, le => by
    cases level with
    | none => exact derives
    | some c => exact absurd le (Nat.not_le.mpr c.rank_pos)
  | some c, le =>
    if same : level = some c then same ▸ derives
    else .operand (derives.loosen c.tighter? (le_strength_tighter le same))
termination_by looser => strength looser
decreasing_by exact strength_tighter c

def Stops (level : Option Connective) (tokens : List (Placed Token)) : Prop :=
  ∀ d p rest, tokens = ⟨.connective d, p⟩ :: rest → strength level < d.rank

theorem Stops.tighter {c : Connective} {tokens : List (Placed Token)}
    (h : Stops (some c) tokens) : Stops c.tighter? tokens :=
  fun d p rest same => Nat.lt_trans (strength_tighter c) (h d p rest same)

theorem stops_connective (c : Connective) (p : Nat) (rest : List (Placed Token)) :
    Stops c.tighter? (⟨.connective c, p⟩ :: rest) := by
  intro d q others same
  cases same
  exact strength_tighter c

theorem stops_closing (level : Option Connective) (q : Nat) (rest : List (Placed Token)) :
    Stops level (⟨.closing, q⟩ :: rest) := nofun

theorem stops_none (tokens : List (Placed Token)) : Stops none tokens :=
  fun d _ _ _ => d.rank_pos

theorem stops_nil (level : Option Connective) : Stops level [] := nofun

theorem outcome_readChain_of_stops {c : Connective} {tokens : List (Placed Token)}
    (h : Stops (some c) tokens) (left : Formula) :
    outcome (readChain stop c left tokens) = .ok (left, tokens) := by
  by_cases next : ∃ d p rest, tokens = ⟨.connective d, p⟩ :: rest
  · obtain ⟨d, p, rest, rfl⟩ := next
    have looser : c.rank < d.rank := h d p rest rfl
    have other : d ≠ c := by
      rintro rfl
      exact Nat.lt_irrefl _ looser
    exact outcome_readChain_other stop other left p rest
  · refine outcome_readChain_end stop (fun d p rest same => ?_) c left
    exact next ⟨d, p, rest, same⟩

/-- What derives a formula is read off the front of the tokens. A formula of a level is read before
the rest of a chain of its connective. -/
theorem Derives.outcome_readAt {level : Option Connective} {t : Formula}
    {used : List (Placed Token)} (derives : Derives level t used) (stop : Nat) :
    (∀ rest, Stops level rest → outcome (readAt stop level (used ++ rest)) = .ok (t, rest)) ∧
      ∀ c, level = some c → c ≠ .implies → ∀ rest, Stops c.tighter? rest →
        outcome (readLevel stop c (used ++ rest)) = outcome (readChain stop c t rest) := by
  -- A level that groups to the left is read by its second part: the chain goes on behind it.
  have close {c : Connective} {t : Formula} {used : List (Placed Token)}
      (chain : ∀ rest, Stops c.tighter? rest →
        outcome (readLevel stop c (used ++ rest)) = outcome (readChain stop c t rest)) :
      ∀ rest, Stops (some c) rest → outcome (readAt stop (some c) (used ++ rest)) = .ok (t, rest) :=
    fun rest stops => (chain rest stops.tighter).trans (outcome_readChain_of_stops stops t)
  induction derives with
  | name letters p =>
    exact ⟨fun rest _ => outcome_readUnary_name stop letters p rest, nofun⟩
  | negation p _ ih =>
    refine ⟨fun rest _ => ?_, nofun⟩
    have inner := ih.1 rest (stops_none rest)
    rw [readAt] at inner ⊢
    rw [List.cons_append, outcome_readUnary_negation, inner]
    rfl
  | parentheses p q _ ih =>
    refine ⟨fun rest _ => ?_, nofun⟩
    have inner := ih.1 (⟨.closing, q⟩ :: rest) (stops_closing _ q rest)
    change outcome (readLevel stop .or _) = _ at inner
    change outcome (readUnary stop _) = _
    rw [List.append_assoc, List.cons_append, outcome_readUnary_opening, List.singleton_append,
      inner]
    rfl
  | @operand c t tokens _ ih =>
    have chain : ∀ rest, Stops c.tighter? rest →
        outcome (readLevel stop c (tokens ++ rest)) = outcome (readChain stop c t rest) := by
      intro rest stops
      rw [outcome_readLevel, outcome_readOperand, ih.1 rest stops]
      rfl
    exact ⟨close chain, fun _ same _ => Option.some.inj same ▸ chain⟩
  | @left c other p l r first second _ _ ihLeft ihRight =>
    have chain : ∀ rest, Stops c.tighter? rest →
        outcome (readLevel stop c (first ++ ⟨.connective c, p⟩ :: second ++ rest)) =
          outcome (readChain stop c (.binary l c r p) rest) := by
      intro rest stops
      rw [List.append_assoc, List.cons_append, ihLeft.2 c rfl other _ (stops_connective c p _),
        outcome_readChain_same stop other, outcome_readOperand, ihRight.1 rest stops]
      rfl
    exact ⟨close chain, fun _ same _ => Option.some.inj same ▸ chain⟩
  | right p _ _ ihLeft ihRight =>
    refine ⟨fun rest stops => ?_, fun c same other => absurd (Option.some.inj same).symm other⟩
    have second := ihRight.1 rest stops
    rw [readAt] at second ⊢
    rw [List.append_assoc, List.cons_append, outcome_readLevel, outcome_readOperand,
      ihLeft.1 _ (stops_connective .implies p _)]
    change outcome (readChain stop .implies _ _) = _
    rw [outcome_readChain_implies, second]
    rfl

/-- Tokens derive at most one formula. -/
theorem Derives.unique {level : Option Connective} {s t : Formula} {used : List (Placed Token)}
    (first : Derives level s used) (second : Derives level t used) : s = t := by
  have left := (first.outcome_readAt 0).1 [] (stops_nil level)
  have right := (second.outcome_readAt 0).1 [] (stops_nil level)
  rw [left] at right
  exact (Prod.mk.inj (Except.ok.inj right)).1

/-! ### Reading a text -/

/-- A text is read as a formula exactly if its tokens derive the formula. -/
theorem read_eq_ok_iff {text : List Char} {t : Formula} :
    Formula.read text = .ok t ↔
      ∃ found, tokens text = .ok found ∧ Derives (some .or) t found := by
  rw [Formula.read, readWhole_eq_ok_iff]
  refine exists_congr fun found => and_congr_right fun _ => ⟨fun level => ?_, fun derives => ?_⟩
  · obtain ⟨used, split, derives⟩ := (derives_of_read _).1 _ _ _ _ level
    rwa [split, List.append_nil]
  · have level := (derives.outcome_readAt (text.length + 1)).1 [] (stops_nil _)
    rwa [readAt, List.append_nil] at level

end DiscreteMath.Proposition
