import DiscreteMath.Proofs.Proposition.Faults
import DiscreteMath.Proofs.Sequence.Faults

/-!
# Places of what is read

Propositional and sequence formulas are read with places that point into the text.
-/

namespace DiscreteMath

open Text

/-- Whatever the text, an error of either reader names a fault and the character where it is, or
the place behind the last character if the text ends too early. The nodes of a formula that is read
are at the places of the tokens that they were read from. -/
theorem read_locates (text : List Char) :
    Proposition.language.Locates text Proposition.Formula.lexemes
        (Proposition.Formula.read text) ∧
      Sequence.language.Locates text Sequence.Formula.lexemes (Sequence.Formula.read text) :=
  ⟨Proposition.locates_read text, Sequence.locates_read text⟩

/-- The parenthesis in `¬(p && q` is left open. In `-k**sin(k)` all tokens but the parentheses are
nodes. -/
theorem read_locates_unclosed :
    (∃ e, Proposition.Formula.read "¬(p && q".toList = .error e ∧ e = .unclosed 2 ∧
      Proposition.language.Fault "¬(p && q".toList e ∧ StandsAt "¬(p && q".toList 2 ['(']) ∧
      ∃ t found, Sequence.Formula.read "-k**sin(k)".toList = .ok t ∧
        t.lexemes = [⟨.operation .sub, 1⟩, ⟨.name "k", 2⟩, ⟨.operation .pow, 3⟩, ⟨.name "sin", 5⟩,
          ⟨.name "k", 9⟩] ∧
        t.lexemes.Sublist found ∧ ∀ x ∈ found, ∃ spelling, Sequence.Spells x.value spelling ∧
          StandsAt "-k**sin(k)".toList x.position spelling := by
  have failed : Proposition.Formula.read "¬(p && q".toList = .error (.unclosed 2) := by cbv
  have read : Sequence.Formula.read "-k**sin(k)".toList =
      .ok (.negation (.binary (.index 2) .pow (.call .sin (.index 9) 5) 3) 1) := by cbv
  obtain ⟨fault, place, -⟩ := (read_locates _).1.of_error _ failed
  obtain ⟨found, -, nodes, places⟩ := (read_locates _).2.of_ok _ read
  exact ⟨⟨_, failed, rfl, fault, place⟩, _, found, read, rfl, nodes, places⟩

end DiscreteMath
