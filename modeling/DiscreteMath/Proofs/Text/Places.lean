import DiscreteMath.Proofs.Text.Pieces

/-!
# Places in a text

Characters stand in a text from a place on. If a text cannot be cut into tokens, the error names the
place of its first stray.

## Main definitions

* `StandsAt` — the characters stand in the text from a place on.
* `Placed.piece` — a token among the pieces of a text.
-/

namespace DiscreteMath.Text

/-- The characters stand in the text from the place on, which counts from 1. -/
structure StandsAt (text : List Char) (p : Nat) (lexeme : List Char) : Prop where
  one_le : 1 ≤ p
  ne_nil : lexeme ≠ []
  here : lexeme <+: text.drop (p - 1)

def Placed.piece (x : Placed α) : Placed (Piece α) := ⟨.token x.value, x.position⟩

variable {text lexeme : List Char} {p : Nat}

theorem StandsAt.le_length (h : StandsAt text p lexeme) : p ≤ text.length := by
  have some := List.length_pos_iff.mpr h.ne_nil
  have fits := h.here.length_le
  rw [List.length_drop] at fits
  omega

theorem standsAt_append (before : List Char) (some : lexeme ≠ []) (after : List Char) :
    StandsAt (before ++ lexeme ++ after) (1 + before.length) lexeme := by
  refine ⟨by omega, some, ?_⟩
  rw [Nat.add_sub_cancel_left, List.append_assoc, List.drop_left]
  exact List.prefix_append lexeme after

/-- The pieces are tokens only, or the first stray is the error. -/
theorem tokensOrStray_cases (found : List (Placed (Piece α))) :
    (∃ tokens, tokensOrStray found = .ok tokens ∧ found = tokens.map Placed.piece) ∨
      ∃ (tokens : List (Placed α)) (c : Char) (p : Nat) (others : List (Placed (Piece α))),
        tokensOrStray found = .error (.unexpected (String.singleton c) p) ∧
          found = tokens.map Placed.piece ++ ⟨.stray c, p⟩ :: others := by
  induction found with
  | nil => exact .inl ⟨[], rfl, rfl⟩
  | cons x rest ih =>
    obtain ⟨t | c, p⟩ := x
    · rcases ih with ⟨tokens, read, rfl⟩ | ⟨tokens, d, q, others, failed, rfl⟩
      · exact .inl ⟨⟨t, p⟩ :: tokens, by rw [tokensOrStray, read]; rfl, rfl⟩
      · exact .inr ⟨⟨t, p⟩ :: tokens, d, q, others, by rw [tokensOrStray, failed]; rfl, rfl⟩
    · exact .inr ⟨[], c, p, rest, rfl, rfl⟩

theorem eq_map_of_tokensOrStray {found : List (Placed (Piece α))} {tokens : List (Placed α)}
    (read : tokensOrStray found = .ok tokens) : found = tokens.map Placed.piece := by
  rcases tokensOrStray_cases found with ⟨tokens', read', split⟩ | ⟨_, _, _, _, failed, -⟩
  · grind
  · grind

end DiscreteMath.Text
