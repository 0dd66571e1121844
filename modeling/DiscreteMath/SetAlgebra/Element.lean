import DiscreteMath.Number.Notation
import DiscreteMath.Text.Characters

/-!
# Elements of sets

An element is a number, a text, a reference to a set by name, or a collection written in place.
Two elements are equal when they agree in kind and content, where the undefined number equals
itself, and collections are compared without regard to order but with regard to repetition.
-/

namespace DiscreteMath.SetAlgebra

inductive Element where
  | number (value : Float)
  | text (content : String)
  | reference (name : String)
  | collection (members : List Element)
  deriving Inhabited

def removeFirst? (p : α → Bool) : List α → Option (List α)
  | [] => none
  | x :: rest => if p x then some rest else (removeFirst? p rest).map (x :: ·)

namespace Element

/-- Equality of numbers: the undefined number equals itself, and zero has no sign. -/
def sameNumber (a b : Float) : Bool := a == b || (a.isNaN && b.isNaN)

mutual

def same : Element → Element → Bool
  | number a, number b => sameNumber a b
  | text a, text b => a == b
  | reference a, reference b => a == b
  | collection as, collection bs => as.length == bs.length && matching as bs
  | _, _ => false

/-- Every member of the first list has a partner of its own in the second: the first equal member
that is not yet taken. -/
def matching : List Element → List Element → Bool
  | [], _ => true
  | a :: as, bs =>
    match removeFirst? (same a) bs with
    | some rest => matching as rest
    | none => false

end

instance : BEq Element := ⟨same⟩

mutual

/-- An element as it is shown; a reference shows its name. -/
def shown : Element → String
  | number value => Number.plain value
  | text content => content
  | reference name => name
  | collection members => "\x7b" ++ Text.join ", " (allShown members) ++ "\x7d"

def allShown : List Element → List String
  | [] => []
  | x :: rest => shown x :: allShown rest

end

end Element

def holds (elements : List Element) (x : Element) : Bool := elements.any (· == x)

/-- The elements that equal neither one of `seen` nor an earlier one. -/
def distinctFrom (seen : List Element) : List Element → List Element
  | [] => []
  | x :: rest => if holds seen x then distinctFrom seen rest else x :: distinctFrom (x :: seen) rest

/-- The elements without repetitions, in the order of their first occurrence. -/
def distinct (elements : List Element) : List Element := distinctFrom [] elements

def literal (elements : List Element) : String := (Element.collection elements).shown

/-- What a membership rule is asked about: an element, with references replaced by names. -/
inductive Datum where
  | number (value : Float)
  | text (content : String)
  | collection (members : List Datum)

mutual

def Element.datum : Element → Datum
  | number value => .number value
  | text content => .text content
  | reference name => .text name
  | collection members => .collection (allData members)

def Element.allData : List Element → List Datum
  | [] => []
  | x :: rest => x.datum :: allData rest

end

end DiscreteMath.SetAlgebra
