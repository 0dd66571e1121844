import DiscreteMath.Number.Literal
import DiscreteMath.SetAlgebra.Element
import DiscreteMath.SetAlgebra.Error

/-!
# Elements read from text

A list of elements is separated by commas and may stand in braces. An item is a collection in
braces, a reference such as `@A`, a finite number, or else a text. Blanks around an item and items
without content do not count.
-/

namespace DiscreteMath.SetAlgebra

open Text

/-- Every brace has a partner, where `depth` braces are open at the start. -/
def balanced : (depth : Nat) → List Char → Bool
  | depth, [] => depth == 0
  | depth, c :: rest =>
    if c = '{' then balanced (depth + 1) rest
    else if c = '}' then
      match depth with
      | 0 => false
      | outer + 1 => balanced outer rest
    else balanced depth rest

/-- The text inside a pair of braces that encloses all of it. -/
def insideBraces? : List Char → Option (List Char)
  | [] => none
  | c :: rest =>
    if c = '{' && rest.getLast? = some '}' && balanced 0 rest.dropLast then some rest.dropLast
    else none

def extendFirst (c : Char) : List (List Char) → List (List Char)
  | [] => [[c]]
  | item :: rest => (c :: item) :: rest

/-- The items between the commas outside of braces, where `depth` braces are open at the start.
There are none if the braces are unbalanced. -/
def splitItems : (depth : Nat) → List Char → Option (List (List Char))
  | depth, [] => if depth = 0 then some [[]] else none
  | depth, c :: rest =>
    if c = '{' then (splitItems (depth + 1) rest).map (extendFirst c)
    else if c = '}' then
      match depth with
      | 0 => none
      | outer + 1 => (splitItems outer rest).map (extendFirst c)
    else if c = ',' && depth = 0 then (splitItems 0 rest).map ([] :: ·)
    else (splitItems depth rest).map (extendFirst c)

theorem length_of_mem_extendFirst {c : Char} {items : List (List Char)} {n : Nat}
    (h : ∀ item ∈ items, item.length ≤ n) :
    ∀ item ∈ extendFirst c items, item.length ≤ n + 1 := by
  cases items <;> grind [extendFirst]

theorem length_of_mem_splitItems {depth : Nat} {text : List Char} {items : List (List Char)}
    (h : splitItems depth text = some items) : ∀ item ∈ items, item.length ≤ text.length := by
  induction text generalizing depth items with
  | nil => grind [splitItems]
  | cons c rest ih =>
    have step {d : Nat} (h : (splitItems d rest).map (extendFirst c) = some items) :
        ∀ item ∈ items, item.length ≤ (c :: rest).length := by
      obtain ⟨found, split, rfl⟩ := Option.map_eq_some_iff.1 h
      exact length_of_mem_extendFirst (ih split)
    simp only [splitItems] at h
    split at h
    · exact step h
    · split at h
      · split at h
        · cases h
        · exact step h
      · split at h
        · obtain ⟨found, split, rfl⟩ := Option.map_eq_some_iff.1 h
          intro item member
          have := ih split item
          grind
        · exact step h

theorem length_insideBraces {text inner : List Char} (h : insideBraces? text = some inner) :
    inner.length < text.length := by
  cases text <;> grind [insideBraces?]

def Element.ofAtom (content : List Char) : Except SetError Element :=
  match content with
  | '@' :: rest =>
    if (trim rest).isEmpty then .error (.invalidElements .namelessReference)
    else .ok (.reference (String.ofList (trim rest)))
  | _ =>
    match (Number.number? content).filter Float.isFinite with
    | some value => .ok (.number value)
    | none => .ok (.text (String.ofList content))

mutual

def Element.ofItem (item : List Char) : Except SetError Element :=
  let content := trim item
  have : content.length ≤ item.length := length_trim_le item
  if content.head? = some '{' || content.getLast? = some '}' then
    match (insideBraces? content).attach with
    | none => .error (.invalidElements (.unbalancedBraces (String.ofList content)))
    | some ⟨inner, h⟩ => do
      have := length_insideBraces h
      let members ← Element.ofItems inner
      return .collection (distinct members)
  else Element.ofAtom content
termination_by 2 * item.length
decreasing_by omega

def Element.ofItems (text : List Char) : Except SetError (List Element) :=
  match (splitItems 0 text).attach with
  | none => .error (.invalidElements (.unbalancedBraces (String.ofList text)))
  | some ⟨items, h⟩ =>
    (items.attach.filter fun item => !(trim item.val).isEmpty).mapM fun item =>
      have := length_of_mem_splitItems h item.val item.property
      Element.ofItem item.val
termination_by 2 * text.length + 1
decreasing_by omega

end

/-- The elements of a list that may stand in braces. Repetitions are kept. -/
def readElements (text : List Char) : Except SetError (List Element) :=
  let content := trim text
  Element.ofItems ((insideBraces? content).getD content)

/-- The elements of single items; items without content do not count. -/
def readItems (items : List (List Char)) : Except SetError (List Element) :=
  (items.filter fun item => !(trim item).isEmpty).mapM Element.ofItem

end DiscreteMath.SetAlgebra
