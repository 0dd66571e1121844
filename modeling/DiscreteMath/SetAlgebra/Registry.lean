import DiscreteMath.SetAlgebra.NumberSets

/-!
# Registered sets

A registry holds enumerated and symbolic sets under names, each kind in the order of registration.
A name belongs to one kind at most: storing a set under a name takes that name from the other kind.
Names that begin with `_temp` are temporary.
-/

namespace DiscreteMath.SetAlgebra

/-- Values under names, in the order in which the names came in. -/
abbrev Named (α : Type) := List (String × α)

namespace Named

def get? (entries : Named α) (name : String) : Option α := entries.lookup name

/-- A name that is present keeps its place; a new one goes to the end. -/
def put (name : String) (value : α) : Named α → Named α
  | [] => [(name, value)]
  | (n, v) :: rest => if n = name then (n, value) :: rest else (n, v) :: put name value rest

def erase (entries : Named α) (name : String) : Named α := entries.filter (·.1 ≠ name)

def names (entries : Named α) : List String := entries.map Prod.fst

end Named

inductive StoredSet where
  | finite (elements : List Element)
  | symbolic (set : SymbolicSet)

namespace StoredSet

def listed (elements : List Element) : String :=
  if elements.isEmpty then "∅" else literal elements

def shown : StoredSet → String
  | finite elements => listed elements
  | symbolic set => set.representation

def described : StoredSet → String
  | finite elements => listed elements
  | symbolic set => set.definition

/-- How the set is shown inside a larger expression. -/
def enclosed : StoredSet → String
  | finite elements => "(" ++ literal elements ++ ")"
  | symbolic set => "(" ++ set.representation ++ ")"

def test : StoredSet → Rule
  | finite elements, x => some (holds elements x)
  | symbolic set, x => set.rule x

/-- The element is known to belong to the set. -/
def contains (set : StoredSet) (x : Element) : Bool := set.test x == some true

end StoredSet

def temporaryMark : String := "_temp"

def isTemporary (name : String) : Bool := temporaryMark.toList.isPrefixOf name.toList

def temporaryName (n : Nat) : String := temporaryMark ++ toString n

structure Registry where
  finite : Named (List Element)
  symbolic : Named SymbolicSet

namespace Registry

def empty : Registry := ⟨[], []⟩

/-- Takes a name out of both kinds. -/
def erase (registry : Registry) (name : String) : Registry :=
  ⟨registry.finite.erase name, registry.symbolic.erase name⟩

def insert (registry : Registry) (name : String) : StoredSet → Registry
  | .finite elements =>
    ⟨registry.finite.put name elements, registry.symbolic.erase name⟩
  | .symbolic set => ⟨registry.finite.erase name, registry.symbolic.put name set⟩

def standard : Registry :=
  predefined.foldl (fun registry (name, set) => registry.insert name (.symbolic set)) empty

def get? (registry : Registry) (name : String) : Option StoredSet :=
  match registry.finite.get? name with
  | some elements => some (.finite elements)
  | none => (registry.symbolic.get? name).map .symbolic

def contains (registry : Registry) (name : String) : Bool := (registry.get? name).isSome

/-- Every name, those of enumerated sets first. -/
def names (registry : Registry) : List String := registry.finite.names ++ registry.symbolic.names

def sets (registry : Registry) : List (String × StoredSet) :=
  registry.finite.map (fun (name, elements) => (name, .finite elements)) ++
    registry.symbolic.map fun (name, set) => (name, .symbolic set)

def withoutTemporaries (registry : Registry) : Registry :=
  ⟨registry.finite.filter (!isTemporary ·.1), registry.symbolic.filter (!isTemporary ·.1)⟩

def hasTemporaries (registry : Registry) : Bool := registry.names.any isTemporary

/-- The names that can take part in a universe for a set. -/
def others (registry : Registry) (operand : String) : List String :=
  registry.names.filter fun name => !isTemporary name && name != operand

/-- The elements of the enumerated sets that can take part in a universe for a set. -/
def gathered (registry : Registry) (operand : String) : List Element :=
  distinct ((registry.others operand).filterMap (registry.finite.get? ·)).flatten

end Registry

end DiscreteMath.SetAlgebra
