import DiscreteMath.Proofs.Result
import DiscreteMath.Text.Lexeme

/-!
# The pieces of a text

Every piece of a text begins at the character at its place. If none of the pieces is a stray, the
tokens cover the text up to what is skipped.

## Main definitions

* `Piece.Starts` — what a piece says of the character that it begins with.
* `Alone` — a character that is a piece by itself.
* `Lexes` — a text that starts at a position consists of tokens and what is skipped.
* `Parsed.outcome` — what was read and what is left, without the bound on its length.
-/

namespace DiscreteMath.Text

variable {skipped : Char → Bool} {start? : Char → List Char → Option (α × Nat)}

/-- A run of characters that is not followed by another one. -/
theorem span_run {p : Char → Bool} {run rest : List Char} (all : ∀ c ∈ run, p c = true)
    (apart : ∀ c ∈ rest.head?, p c = false) :
    (run ++ rest).takeWhile p = run ∧ (run ++ rest).dropWhile p = rest := by
  rw [List.takeWhile_append_of_pos all, List.dropWhile_append_of_pos all]
  cases rest with
  | nil => simp
  | cons c more => simp [apart c rfl]

/-- What a piece says of the character that it begins with and of what follows it. -/
def Piece.Starts (start? : Char → List Char → Option (α × Nat)) (c : Char)
    (following : List Char) : Piece α → Prop
  | .token t => ∃ more, start? c following = some (t, more)
  | .stray d => d = c ∧ start? c following = none

/-- A piece begins at its place. -/
theorem exists_of_mem_pieces {text : List Char} {position : Nat} {x : Placed (Piece α)}
    (member : x ∈ pieces skipped start? position text) :
    ∃ before c following, text = before ++ c :: following ∧
      x.position = position + before.length ∧ skipped c = false ∧
      x.value.Starts start? c following := by
  fun_induction pieces skipped start? position text with
  | case1 => cases member
  | case2 position c rest _ ih =>
    obtain ⟨before, d, following, rfl, place, keep, starts⟩ := ih member
    exact ⟨c :: before, d, following, rfl, by grind, keep, starts⟩
  | case3 position c rest keep token more started ih =>
    rcases List.mem_cons.mp member with rfl | later
    · exact ⟨[], c, rest, rfl, rfl, by simpa using keep, more, started⟩
    · obtain ⟨before, d, following, split, place, keep, starts⟩ := ih later
      have whole : rest = rest.take more ++ (before ++ d :: following) := by
        rw [← split, List.take_append_drop]
      have taken : (rest.take more).length = more := by
        have fits := congrArg List.length split
        simp only [List.length_drop, List.length_append, List.length_cons] at fits
        rw [List.length_take]
        omega
      refine ⟨c :: (rest.take more ++ before), d, following, ?_, ?_, keep, starts⟩
      · simpa using whole
      · simp only [List.length_cons, List.length_append, taken]
        omega
  | case4 position c rest keep started ih =>
    rcases List.mem_cons.mp member with rfl | later
    · exact ⟨[], c, rest, rfl, rfl, by simpa using keep, rfl, started⟩
    · obtain ⟨before, d, following, rfl, place, keep, starts⟩ := ih later
      exact ⟨c :: before, d, following, rfl, by grind, keep, starts⟩

/-- What the pieces are does not depend on their places. -/
theorem values_pieces (position position' : Nat) (text : List Char) :
    (pieces skipped start? position text).map Placed.value =
      (pieces skipped start? position' text).map Placed.value := by
  fun_induction pieces skipped start? position text generalizing position' with
  | case1 => simp [pieces]
  | case2 position c rest skip ih => rw [pieces, if_pos skip, ih]
  | case3 position c rest keep token more started ih =>
    rw [pieces, if_neg keep, started]
    simp only [List.map_cons, ih (position' + 1 + more)]
  | case4 position c rest keep started ih =>
    rw [pieces, if_neg keep, started]
    simp only [List.map_cons, ih (position' + 1)]

/-- A piece that begins with the character is that character, whatever follows. -/
def Alone (start? : Char → List Char → Option (α × Nat)) (c : Char) : Prop :=
  ∃ found : Option α, ∀ following, start? c following = found.map (·, 0)

/-- A text in which each character is a piece by itself can be cut off. -/
theorem values_pieces_append {xs ys : List Char} (alone : ∀ c ∈ xs, Alone start? c)
    (position : Nat) : (pieces skipped start? position (xs ++ ys)).map Placed.value =
      (pieces skipped start? position xs).map Placed.value ++
        (pieces skipped start? position ys).map Placed.value := by
  induction xs generalizing position with
  | nil => simp [pieces]
  | cons c xs ih =>
    obtain ⟨⟨found, starts⟩, others⟩ := List.forall_mem_cons.mp alone
    have later : (pieces skipped start? (position + 1) ys).map Placed.value =
        (pieces skipped start? position ys).map Placed.value := values_pieces _ _ ys
    have next := ih others (position + 1)
    rw [later] at next
    rw [List.cons_append, pieces, pieces, starts, starts]
    cases skipped c with
    | true => simp [next]
    | false => cases found <;> simp [next]

/-- The text that starts at the position consists of the tokens and of characters to be skipped. -/
inductive Lexes (skipped : Char → Bool) (start? : Char → List Char → Option (α × Nat)) :
    Nat → List Char → List (Placed α) → Prop
  | nil (position : Nat) : Lexes skipped start? position [] []
  | skip {position : Nat} {c : Char} {rest : List Char} {found : List (Placed α)} :
      skipped c = true → Lexes skipped start? (position + 1) rest found →
      Lexes skipped start? position (c :: rest) found
  | token {position more : Nat} {c : Char} {rest : List Char} {token : α}
      {found : List (Placed α)} :
      skipped c = false → start? c rest = some (token, more) →
      Lexes skipped start? (position + 1 + more) (rest.drop more) found →
      Lexes skipped start? position (c :: rest) (⟨token, position⟩ :: found)

theorem tokensOrStray_pieces {position : Nat} {text : List Char} {found : List (Placed α)} :
    tokensOrStray (pieces skipped start? position text) = .ok found ↔
      Lexes skipped start? position text found := by
  constructor
  · intro read
    fun_induction pieces skipped start? position text generalizing found with
    | case1 position =>
      cases read
      exact .nil position
    | case2 position c rest skip ih => exact .skip skip (ih read)
    | case3 position c rest keep token more started ih =>
      cases later :
        tokensOrStray (pieces skipped start? (position + 1 + more) (rest.drop more)) with
      | error e => simp [tokensOrStray, later, Except.map] at read
      | ok others =>
        simp only [tokensOrStray, later, Except.map, Except.ok.injEq] at read
        subst read
        exact .token (by simpa using keep) started (ih later)
    | case4 position c rest keep started ih => cases read
  · intro lexes
    induction lexes with
    | nil position => simp [pieces, tokensOrStray]
    | skip skip _ ih => rw [pieces, if_pos skip, ih]
    | token keep started _ ih =>
      simp only [pieces, keep, Bool.false_eq_true, if_false, started, tokensOrStray, ih]
      rfl

theorem Lexes.exists_start {position : Nat} {text : List Char} {found : List (Placed α)}
    (lexes : Lexes skipped start? position text found) {x : Placed α} (member : x ∈ found) :
    ∃ c following more, start? c following = some (x.value, more) := by
  induction lexes with
  | nil => cases member
  | skip _ _ ih => exact ih member
  | token _ started _ ih =>
    rcases List.mem_cons.mp member with rfl | later
    · exact ⟨_, _, _, started⟩
    · exact ih later

namespace Parsed

variable {τ β : Type} {n : Nat}

def outcome (result : Except ReadError (Parsed τ β n)) :
    Except ReadError (β × List (Placed τ)) :=
  result.map fun p => (p.value, p.rest)

@[simp] theorem outcome_ok (p : Parsed τ β n) : outcome (.ok p) = .ok (p.value, p.rest) := rfl

@[simp] theorem outcome_error (e : ReadError) :
    outcome (.error e : Except ReadError (Parsed τ β n)) = .error e := rfl

theorem outcome_eq_ok {result : Except ReadError (Parsed τ β n)} {value : β}
    {rest : List (Placed τ)} (h : outcome result = .ok (value, rest)) :
    ∃ p, result = .ok p ∧ p.value = value ∧ p.rest = rest := by
  cases result with
  | error e => cases h
  | ok p =>
    simp only [outcome_ok, Except.ok.injEq, Prod.mk.injEq] at h
    exact ⟨p, rfl, h⟩

variable {text : τ → String} {tokens : Except ReadError (List (Placed τ))}
  {read : (found : List (Placed τ)) → Except ReadError (Parsed τ β found.length)}

/-- The tokens are read together exactly if the reader leaves none of them. -/
theorem readWhole_eq_ok_iff {value : β} : readWhole text tokens read = .ok value ↔
    ∃ found, tokens = .ok found ∧ outcome (read found) = .ok (value, []) := by
  rw [readWhole]
  constructor
  · intro whole
    obtain ⟨found, lexed, whole⟩ := bind_eq_ok whole
    obtain ⟨⟨value, rest, shorter⟩, level, whole⟩ := bind_eq_ok whole
    cases rest with
    | nil =>
      cases whole
      exact ⟨found, lexed, by rw [level, outcome_ok]⟩
    | cons x rest => cases whole
  · rintro ⟨found, lexed, level⟩
    obtain ⟨⟨value, rest, shorter⟩, done, rfl, rfl⟩ := outcome_eq_ok level
    simp only [lexed, bind, Except.bind, done]
    rfl

/-- It fails where a text has no tokens, where the reader fails, or where it leaves a token. -/
theorem readWhole_eq_error {e : ReadError} (failed : readWhole text tokens read = .error e) :
    tokens = .error e ∨ ∃ found, tokens = .ok found ∧ (outcome (read found) = .error e ∨
      ∃ value x rest, outcome (read found) = .ok (value, x :: rest) ∧
        e = .unexpected (text x.value) x.position) := by
  rw [readWhole] at failed
  rcases bind_eq_error failed with lexing | ⟨found, lexed, failed⟩
  · exact .inl lexing
  refine .inr ⟨found, lexed, ?_⟩
  rcases bind_eq_error failed with level | ⟨⟨value, rest, shorter⟩, level, failed⟩
  · exact .inl (by rw [level, outcome_error])
  · cases rest with
    | nil => cases failed
    | cons x rest =>
      cases failed
      exact .inr ⟨value, x, rest, by rw [level, outcome_ok], rfl⟩

end Parsed

end DiscreteMath.Text
