import DiscreteMath.SetAlgebra.Element

/-!
# Symbolic sets

A set that cannot be enumerated has a definition to be shown, a membership rule that may leave an
element undecided, and some samples. The label of a definition is the symbol it begins with.
-/

namespace DiscreteMath.SetAlgebra

/-- A membership rule; `none` is undecided. -/
abbrev Rule := Element → Option Bool

structure SymbolicSet where
  /-- For instance `ℕ = {0, 1, 2, 3, ...}`. -/
  definition : String
  /-- How results built from the set are shown. -/
  representation : String
  samples : List Element
  rule : Rule

def beforeEquals? : List Char → Option (List Char)
  | ' ' :: '=' :: ' ' :: _ => some []
  | c :: rest => (beforeEquals? rest).map (c :: ·)
  | [] => none

/-- The symbol that a definition begins with: the text before ` = `, or all of it. -/
def label (definition : String) : String :=
  let text := definition.toList
  String.ofList (Text.trim ((beforeEquals? text).getD text))

namespace SymbolicSet

/-- A set with a rule for data, represented by its definition. -/
def ofRule (definition : String) (rule : Datum → Option Bool) (samples : List Element) :
    SymbolicSet :=
  ⟨definition, definition, samples, fun x => rule x.datum⟩

def label (set : SymbolicSet) : String := SetAlgebra.label set.definition

/-- Every element belongs to the set, by its label. -/
def isUniversal (set : SymbolicSet) : Bool := set.label == "U" || set.label == "Universal"

end SymbolicSet

end DiscreteMath.SetAlgebra
