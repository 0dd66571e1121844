import DiscreteMath.SetAlgebra.Operation

/-!
# Explanations of operations

The steps in which an operation on two sets is explained. They depend on the operands and on the
value alone, and the value never depends on them.
-/

namespace DiscreteMath.SetAlgebra

structure Step where
  headline : String
  detail : String
  deriving Repr, DecidableEq

def Step.text (step : Step) : String :=
  let indented := step.detail.toList.flatMap fun c => if c = '\n' then ['\n', ' ', ' '] else [c]
  step.headline ++ "\n  " ++ String.ofList indented

namespace Explanation

def operands (a b : Operand) : Step :=
  ⟨s!"Identify the elements of sets {a.label} and {b.label}",
    s!"Set {a.label}: {a.set.described}\nSet {b.label}: {b.set.described}"⟩

/-- The last step: the value under its expression, or the relation. -/
def outcome (op : Operation) (a b : Operand) (value : Value) : Step :=
  match value with
  | .set result => ⟨"Final result", s!"{op.written a.label b.label} = {result.shown}"⟩
  | .relation .. => ⟨"Final result", value.shown⟩

def enumerated (op : Operation) (a : String) (x : List Element) (b : String) (y : List Element) :
    List Step :=
  let listed := StoredSet.listed
  match op with
  | .union =>
    [⟨s!"Take every element of the first set {a}", s!"Initial elements: {listed x}"⟩,
      ⟨s!"Add the elements of {b} that are not in {a}",
        s!"Elements to add: {listed (without y x)}"⟩]
  | .intersection =>
    [⟨s!"Examine each element of the first set {a}",
        s!"Look for the elements of {a} that are also in {b}"⟩,
      ⟨"Common elements found", s!"Elements in both sets: {listed (shared x y)}"⟩]
  | .difference =>
    [⟨s!"Examine each element of the first set {a}",
        s!"Identify the elements of {a} that are NOT in {b}"⟩,
      ⟨"Identify common elements", s!"Elements in both sets: {listed (shared x y)}"⟩,
      ⟨"Remove the common elements from the first set",
        s!"Elements in {a} but not in {b}: {listed (without x y)}"⟩]
  | .symmetricDifference =>
    [⟨s!"Elements only in {a}", listed (without x y)⟩,
      ⟨s!"Elements only in {b}", listed (without y x)⟩]
  | .complement =>
    [⟨s!"Use {b} as the universe",
        s!"Keep the elements of {b} that are not in {a}: {listed (without y x)}"⟩]
  | .subset =>
    [⟨s!"Check every element of {a} against {b}",
        s!"Elements of {a} missing from {b}: {listed (without x y)}"⟩]

def symbolic (value : Value) : Step :=
  ⟨"Operation with infinite sets", match value with
    | .relation .. => "Inclusion between infinite sets is decided by the membership test or by " ++
        "the known hierarchy of number sets"
    | .set (.finite _) =>
      "The finite operand is filtered through the membership test of the infinite one"
    | .set (.symbolic _) => "The result is represented symbolically"⟩

def steps (op : Operation) (a b : Operand) (value : Value) : List Step :=
  let middle := match a.set, b.set with
    | .finite x, .finite y => enumerated op a.label x b.label y
    | _, _ => [symbolic value]
  operands a b :: middle ++ [outcome op a b value]

end Explanation

end DiscreteMath.SetAlgebra
