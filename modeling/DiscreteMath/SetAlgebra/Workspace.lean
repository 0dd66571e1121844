import DiscreteMath.SetAlgebra.Explanation
import DiscreteMath.SetAlgebra.Literal

/-!
# The workspace

A workspace is a registry of sets on which operations are carried out by name. Values are kept in
a memo as long as no explanations are asked for, and every change of the registry empties it. The
number of computations counts the values that did not come from the memo.
-/

namespace DiscreteMath.SetAlgebra

/-- A set or a relation as it is answered, without the rule of a symbolic set. -/
inductive Answer where
  | finite (elements : List Element)
  | symbolic (definition representation : String) (samples : List Element)
  | relation (subset superset : String) (verdict : Verdict)

namespace Answer

def ofSet : StoredSet → Answer
  | .finite elements => finite elements
  | .symbolic set => symbolic set.definition set.representation set.samples

def ofValue : Value → Answer
  | .set value => ofSet value
  | .relation a b verdict => relation a b verdict

def representation : Answer → String
  | finite elements => literal elements
  | symbolic _ representation _ => representation
  | relation a b verdict => relationText a b verdict

def kind : Answer → String
  | finite _ => "finite"
  | symbolic .. => "infinite"
  | relation .. => "relation"

def text (answer : Answer) : String :=
  match answer with
  | relation _ _ verdict => s!"{answer.representation} ({verdict.text})"
  | _ => answer.representation

end Answer

/-- An answer with its explanation. The error is one that was recovered from. -/
structure Evaluation where
  answer : Answer
  steps : List Step
  error : Option SetError

/-- What a value in the memo was computed from: an operation and the names of its operands. -/
abbrev MemoKey := Operation × String × String

structure Workspace where
  registry : Registry
  memo : List (MemoKey × Value)
  explains : Bool
  computations : Nat

namespace Workspace

def ofRegistry (registry : Registry) : Workspace := ⟨registry, [], false, 0⟩

def standard : Workspace := ofRegistry .standard

def setExplains (w : Workspace) (explains : Bool) : Workspace := { w with explains }

/-- With another registry and an empty memo. -/
def withRegistry (w : Workspace) (registry : Registry) : Workspace :=
  { w with registry, memo := [] }

def store (w : Workspace) (name : String) (set : StoredSet) : Workspace :=
  w.withRegistry (w.registry.insert name set)

/-- Refuses a name that consists of blanks. -/
def checkName (name : String) : Except SetError Unit :=
  if (Text.trim name.toList).isEmpty then .error .emptyName else .ok ()

/-- Registers an enumerated set, without repetitions. -/
def addElements (w : Workspace) (name : String) (elements : List Element) :
    Except SetError Workspace := do
  checkName name
  return w.store name (.finite (distinct elements))

def addLiteral (w : Workspace) (name text : String) : Except SetError Workspace := do
  checkName name
  w.addElements name (← readElements text.toList)

def addItems (w : Workspace) (name : String) (items : List String) : Except SetError Workspace := do
  checkName name
  w.addElements name (← readItems (items.map String.toList))

def addSymbolic (w : Workspace) (name definition : String) (rule : Datum → Option Bool)
    (samples : List Element) : Except SetError Workspace := do
  checkName name
  return w.store name (.symbolic (.ofRule definition rule (distinct samples)))

def remove (w : Workspace) (name : String) : Except SetError Workspace :=
  if w.registry.contains name then .ok (w.withRegistry (w.registry.erase name))
  else .error (.unknownSet name)

def find (w : Workspace) (name : String) : Except SetError StoredSet :=
  match w.registry.get? name with
  | some set => .ok set
  | none => .error (.unknownSet name)

def get (w : Workspace) (name : String) : Except SetError Answer :=
  (w.find name).map .ofSet

/-- Every set that is not temporary, enumerated sets first. -/
def all (w : Workspace) : List (String × Answer) :=
  (w.registry.sets.filter (!isTemporary ·.1)).map fun (name, set) => (name, .ofSet set)

def isMember (w : Workspace) (x : Element) (name : String) : Except SetError Bool :=
  (w.find name).map (·.contains x)

/-- The label of a name: itself, or what a temporary set holds. -/
def label (w : Workspace) (name : String) : String :=
  if isTemporary name then
    match w.registry.get? name with
    | some set => set.enclosed
    | none => name
  else name

def operand (w : Workspace) (name : String) : Except SetError Operand :=
  (w.find name).map fun set => ⟨w.label name, set⟩

def compute (w : Workspace) (op : Operation) (a b : String) : Except SetError Value := do
  let left ← w.operand a
  let right ← w.operand b
  return combine op left right

/-- A way of carrying out an operation on the sets of two names. -/
abbrev Executor :=
  Workspace → Operation → String → String → Except SetError (Value × Workspace)

def applyAnew : Executor := fun w op a b => do
  let value ← w.compute op a b
  return (value, { w with computations := w.computations + 1 })

/-- The value is taken from the memo if it is there and no explanation is asked for. -/
def apply : Executor := fun w op a b => do
  let left ← w.operand a
  let right ← w.operand b
  match if w.explains then none else w.memo.lookup (op, a, b) with
  | some known => return (known, w)
  | none =>
    let value := combine op left right
    let memo := if w.explains then w.memo else ((op, a, b), value) :: w.memo
    return (value, { w with memo, computations := w.computations + 1 })

def evaluateOperationBy (execute : Executor) (w : Workspace) (op : Operation) (a b : String) :
    Except SetError (Evaluation × Workspace) := do
  let left ← w.operand a
  let right ← w.operand b
  let (value, next) ← execute w op a b
  let steps := if w.explains then Explanation.steps op left right value else []
  return (⟨.ofValue value, steps, none⟩, next)

def evaluateOperation (w : Workspace) (op : Operation) (a b : String) :
    Except SetError (Evaluation × Workspace) :=
  w.evaluateOperationBy apply op a b

end Workspace

end DiscreteMath.SetAlgebra
