import DiscreteMath.SetAlgebra.Element

/-!
# Hashing elements

What is written of an element to a hasher tells its kind and its content. Of a collection nothing
is written but the sum of the digests of its members, which does not depend on their order. A table
holds elements in the order in which they came in, and an element is looked for among those of its
hash.
-/

namespace DiscreteMath.SetAlgebra

inductive Write where
  | byte (value : UInt8)
  | index (value : Int)
  | word (value : UInt64)
  | text (content : String)
  deriving DecidableEq

/-- How a number is written, and the digest of all that is written to a hasher. -/
structure Hasher where
  number : Float → List Write
  digest : List Write → UInt64

namespace Element

mutual

def written (h : Hasher) : Element → List Write
  | number value => .byte 0 :: .index 0 :: h.number value
  | text content => [.byte 0, .index 1, .text content]
  | reference name => [.byte 1, .text name]
  | collection members => [.byte 2, .word (digestSum h members)]

def digestSum (h : Hasher) : List Element → UInt64
  | [] => 0
  | x :: rest => h.digest (written h x) + digestSum h rest

end

end Element

namespace Table

/-- An element comes last in a table, unless there is an equal one of the same hash. -/
def insert (h : Hasher) (hash : List Write → UInt64) (table : List Element) (x : Element) :
    List Element :=
  if table.any fun y => hash (y.written h) == hash (x.written h) && y == x then table
  else table ++ [x]

def collect (h : Hasher) (hash : List Write → UInt64) (elements : List Element) : List Element :=
  elements.foldl (insert h hash) []

end Table

end DiscreteMath.SetAlgebra
