import DiscreteMath.SetAlgebra.Registry

/-!
# Operations on sets

Two sets are combined element by element as long as both are enumerated. With a symbolic set among
them an enumerated set takes part through its elements and a symbolic one through its rule, and a
result that cannot be enumerated is symbolic again: its definition, its representation and its rule
are composed of those of the operands. The second operand of a complement is the universe.
-/

namespace DiscreteMath.SetAlgebra

inductive Operation where
  | union | intersection | difference | symmetricDifference | complement | subset
  deriving Repr, DecidableEq

namespace Operation

def all : List Operation :=
  [union, intersection, difference, symmetricDifference, complement, subset]

def symbol : Operation → String
  | union => "∪"
  | intersection => "∩"
  | difference => "-"
  | symmetricDifference => "Δ"
  | complement => "ᶜ"
  | subset => "⊆"

def name : Operation → String
  | union => "union"
  | intersection => "intersection"
  | difference => "difference"
  | symmetricDifference => "symmetric difference"
  | complement => "complement"
  | subset => "subset"

def precedence : Operation → Nat
  | subset => 1
  | union | symmetricDifference => 2
  | intersection | difference => 3
  | complement => 4

def written (op : Operation) (a b : String) : String :=
  if op = complement then a ++ op.symbol else a ++ " " ++ op.symbol ++ " " ++ b

end Operation

inductive Verdict where
  | yes | no | unknown
  deriving Repr, DecidableEq

namespace Verdict

def ofBool (b : Bool) : Verdict := if b then yes else no

def text : Verdict → String
  | yes => "true"
  | no => "false"
  | unknown => "indeterminate"

end Verdict

/-- The outcome of an operation: a set, or a relation with the labels of its two sides. -/
inductive Value where
  | set (value : StoredSet)
  | relation (subset superset : String) (verdict : Verdict)

/-- A relation as it is written, with a struck sign if it does not hold. -/
def relationText (subset superset : String) (verdict : Verdict) : String :=
  subset ++ (if verdict = .no then " ⊈ " else " ⊆ ") ++ superset

def Value.shown : Value → String
  | set value => value.shown
  | relation a b verdict => relationText a b verdict

/-- A set with the label under which it takes part in an operation. -/
structure Operand where
  label : String
  set : StoredSet

namespace Operand

def definition (x : Operand) : String :=
  match x.set with
  | .finite elements => literal elements
  | .symbolic set => set.definition

def samples (x : Operand) : List Element :=
  match x.set with
  | .finite elements => elements
  | .symbolic set => set.samples

def isUniversal (x : Operand) : Bool :=
  match x.set with
  | .finite _ => false
  | .symbolic set => set.isUniversal

end Operand

def without (elements others : List Element) : List Element :=
  elements.filter fun x => !holds others x

def shared (elements others : List Element) : List Element :=
  elements.filter fun x => holds others x

/-! ### Enumerated sets -/

namespace Enumerated

def combine (op : Operation) (a : String) (x : List Element) (b : String) (y : List Element) :
    Value :=
  match op with
  | .union => .set (.finite (x ++ without y x))
  | .intersection => .set (.finite (shared x y))
  | .difference => .set (.finite (without x y))
  | .symmetricDifference => .set (.finite (without x y ++ without y x))
  | .complement => .set (.finite (without y x))
  | .subset => .relation a b (.ofBool (without x y).isEmpty)

end Enumerated

/-! ### Symbolic sets -/

namespace Symbolic

/-- Rules combined by the connectives of three truth values. -/
def either (p q : Rule) : Rule := fun x =>
  match p x, q x with
  | some true, _ | _, some true => some true
  | some false, some false => some false
  | _, _ => none

def both (p q : Rule) : Rule := fun x =>
  match p x, q x with
  | some false, _ | _, some false => some false
  | some true, some true => some true
  | _, _ => none

def butNot (p q : Rule) : Rule := fun x =>
  match p x, q x with
  | some false, _ | _, some true => some false
  | some true, some false => some true
  | _, _ => none

def oneOf (p q : Rule) : Rule := fun x =>
  match p x, q x with
  | some a, some b => some (a != b)
  | _, _ => none

def not (p : Rule) : Rule := fun x => (p x).map (!·)

def everything : SymbolicSet := ⟨"U", "U", [], fun _ => some true⟩

/-- A sample that stands for the ones that could not be found. -/
def placeholder : Element := .text "..."

def union (a b : Operand) : SymbolicSet :=
  if a.isUniversal || b.isUniversal then everything
  else {
    definition := a.definition ++ " ∪ " ++ b.definition
    representation := a.label ++ " ∪ " ++ b.label
    samples := distinct (a.samples ++ b.samples)
    rule := either a.set.test b.set.test }

/-- The samples of both sets that belong to both. -/
def commonSamples (a b : Operand) : List Element :=
  distinct ((a.samples ++ b.samples).filter fun x => a.set.contains x && b.set.contains x)

def intersection (a b : Operand) : StoredSet :=
  match a.set, b.set with
  | .finite elements, _ => .finite (elements.filter b.set.contains)
  | _, .finite elements => .finite (elements.filter a.set.contains)
  | _, _ =>
    let samples := commonSamples a b
    .symbolic {
      definition := a.definition ++ " ∩ " ++ b.definition
      representation := a.label ++ " ∩ " ++ b.label
      samples := if samples.isEmpty then [placeholder] else samples
      rule := both a.set.test b.set.test }

/-- The samples of `a` that are known not to belong to `b`. -/
def samplesOutside (a b : Operand) : List Element :=
  a.samples.filter fun x => b.set.test x == some false

/-- An enumerated set keeps the elements that the other set leaves undecided. -/
def difference (a b : Operand) : StoredSet :=
  match a.set with
  | .finite elements => .finite (elements.filter fun x => !b.set.contains x)
  | .symbolic _ =>
    .symbolic {
      definition := a.definition ++ " - " ++ b.definition
      representation := a.label ++ " - " ++ b.label
      samples := samplesOutside a b
      rule := butNot a.set.test b.set.test }

def symmetricDifference (a b : Operand) : SymbolicSet :=
  let x := a.definition
  let y := b.definition
  { definition := "(" ++ x ++ " - " ++ y ++ ") ∪ (" ++ y ++ " - " ++ x ++ ")"
    representation := a.label ++ " Δ " ++ b.label
    samples := distinct (samplesOutside a b ++ samplesOutside b a)
    rule := oneOf a.set.test b.set.test }

/-- The difference of the universe and a set, shown as a complement if everything belongs to the
universe. -/
def complement (a whole : Operand) : StoredSet :=
  if whole.isUniversal then
    .symbolic {
      definition := whole.definition ++ " - " ++ a.definition
      representation := a.label ++ "ᶜ"
      samples := []
      rule := not a.set.test }
  else difference whole a

/-- An enumerated set is included if all its elements are known to belong to the other set. Two
symbolic sets are compared by their labels. -/
def included (a b : Operand) : Verdict :=
  if b.isUniversal then .yes
  else if a.isUniversal then .no
  else match a.set, b.set with
    | .finite elements, _ => .ofBool (elements.all b.set.contains)
    | .symbolic x, .symbolic y =>
      match knownSubset? x.label y.label with
      | some known => .ofBool known
      | none => .unknown
    | _, _ => .unknown

def combine (op : Operation) (a b : Operand) : Value :=
  match op with
  | .union => .set (.symbolic (union a b))
  | .intersection => .set (intersection a b)
  | .difference => .set (difference a b)
  | .symmetricDifference => .set (.symbolic (symmetricDifference a b))
  | .complement => .set (complement a b)
  | .subset => .relation a.label b.label (included a b)

end Symbolic

def combine (op : Operation) (a b : Operand) : Value :=
  match a.set, b.set with
  | .finite x, .finite y => Enumerated.combine op a.label x b.label y
  | _, _ => Symbolic.combine op a b

end DiscreteMath.SetAlgebra
