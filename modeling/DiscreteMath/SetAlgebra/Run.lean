import DiscreteMath.SetAlgebra.Postfix
import DiscreteMath.SetAlgebra.Workspace

/-!
# Running postfix instructions

A run works on a stack of names of sets. An operation takes its operands from the stack and puts
back the name of a temporary set that holds its value; an inclusion ends the run with its answer.
The complement is taken against the set `U`, or against what can serve in its place. On the way the
run keeps a journal of explained steps and a list of warnings. Operations are carried out by
`execute`, with the memo or without.
-/

namespace DiscreteMath.SetAlgebra

def universeName : String := "U"

structure Run where
  workspace : Workspace
  /-- The names of the operands at hand, the latest first. -/
  stack : List String
  /-- How many temporary sets have been stored. -/
  temporaries : Nat
  /-- The number of the next step of the evaluation proper. -/
  stepNumber : Nat
  journal : List Step
  warnings : List String

structure Finished where
  run : Run
  result : Except SetError Answer

inductive Progress where
  | running (run : Run)
  | finished (outcome : Finished)

namespace Run

def start (w : Workspace) : Run := ⟨w, [], 0, 1, [], []⟩

def answered (r : Run) (answer : Answer) : Finished := ⟨r, .ok answer⟩

def failed (r : Run) (error : SetError) : Finished := ⟨r, .error error⟩

def note (r : Run) (headline detail : String) : Run :=
  { r with journal := r.journal ++ [⟨headline, detail⟩] }

def warn (r : Run) (warning : String) : Run := { r with warnings := r.warnings ++ [warning] }

def noteNumbered (r : Run) (headline detail : String) : Run :=
  let noted := r.note s!"Step {r.stepNumber}: {headline}" detail
  { noted with stepNumber := r.stepNumber + 1 }

/-- The labels of the operands at hand, the latest last. -/
def stackText (r : Run) : String := Text.join ", " (r.stack.reverse.map r.workspace.label)

/-- Stores a set under a temporary name and puts the name on the stack. -/
def push (r : Run) (set : StoredSet) : Run :=
  let name := temporaryName r.temporaries
  { r with
    workspace := r.workspace.store name set
    stack := name :: r.stack
    temporaries := r.temporaries + 1 }

def pushNoted (r : Run) (headline written : String) (set : StoredSet) (remark : String) : Run :=
  let pushed := (r.push set).note headline (written ++ " = " ++ set.shown ++ remark)
  pushed.note "Current stack" s!"Stack: [{pushed.stackText}]"

/-- The set that the complement of `operand` is taken against: `U`; else the only other set; else
the union of the other enumerated sets, which is registered as `U`; else, if that is empty, the
last other set. -/
def chooseUniverse (r : Run) (operand : String) : Except SetError (Run × String) :=
  if r.workspace.registry.contains universeName then .ok (r, universeName)
  else match r.workspace.registry.others operand with
    | [] => .error .noUniverse
    | [only] => .ok (r, only)
    | _ :: second :: more =>
      let elements := r.workspace.registry.gathered operand
      if elements.isEmpty then .ok (r, (second :: more).getLastD second)
      else
        let noted := r.note "Creating the universe U"
          (s!"The universe U = {literal elements} was created automatically as the union of " ++
            "every existing set.")
        .ok ({ noted with workspace := r.workspace.store universeName (.finite elements) },
          universeName)

def verdictText : Verdict → String
  | .yes => "Yes"
  | .no => "No"
  | .unknown => "It cannot be determined"

/-- Carries out an operation on two sets. A set is put on the stack, and a relation is the answer
of the run. -/
def operate (execute : Workspace.Executor) (r : Run) (op : Operation) (a b remark : String) :
    Progress :=
  let la := r.workspace.label a
  let lb := r.workspace.label b
  match execute r.workspace op a b with
  | .error e => .finished (r.failed e)
  | .ok (.relation x y verdict, w) =>
    let noted := { r with workspace := w }.note "Result of the subset relation"
      (s!"Is {la} a subset of {lb}? {verdictText verdict}\n" ++ relationText x y verdict)
    .finished (noted.answered (.relation x y verdict))
  | .ok (.set set, w) =>
    .running ({ r with workspace := w }.pushNoted s!"Result of the {op.name}"
      (op.written la lb) set remark)

def applyComplement (execute : Workspace.Executor) (r : Run) : Progress :=
  match r.stack with
  | [] => .finished (r.failed (.malformedExpression .noOperandForComplement))
  | a :: rest =>
    match { r with stack := rest }.chooseUniverse a with
    | .error e => .finished (r.failed e)
    | .ok (r, whole) =>
      let la := r.workspace.label a
      let lu := r.workspace.label whole
      let noted := r.noteNumbered s!"Compute the complement of {la}"
        (s!"Pop {la} from the stack.\nThe complement is taken relative to the universe {lu}.\n" ++
          s!"Formula: {lu} - {la}")
      noted.operate execute .complement a whole "\nThe result is stored and pushed onto the stack."

def applyBinary (execute : Workspace.Executor) (r : Run) (op : Operation) : Progress :=
  match r.stack with
  | b :: a :: rest =>
    let la := r.workspace.label a
    let lb := r.workspace.label b
    let noted := { r with stack := rest }.noteNumbered s!"Compute the {op.name}"
      (s!"Pop two operands from the stack: {la} and {lb}.\nCompute {la} {op.symbol} {lb}")
    noted.operate execute op a b ""
  | _ => .finished (r.failed (.malformedExpression (.noOperandsFor op.symbol)))

def pushName (r : Run) (name : String) : Run :=
  let pushed := { r with stack := name :: r.stack }
  pushed.noteNumbered s!"Process operand {name}"
    (s!"Push the set {name} onto the stack.\nCurrent stack: [{pushed.stackText}]")

def follow (execute : Workspace.Executor) (r : Run) : Instruction → Progress
  | .push name => .running (r.pushName name)
  | .apply op =>
    if op = .complement then r.applyComplement execute else r.applyBinary execute op

def followAll (execute : Workspace.Executor) (r : Run) : List Instruction → Progress
  | [] => .running r
  | instruction :: rest =>
    match r.follow execute instruction with
    | .running next => next.followAll execute rest
    | .finished outcome => .finished outcome

/-- Combines the two latest operands by union; what cannot be combined counts as empty, as would a
relation, which no union is. -/
def mergePair (execute : Workspace.Executor) (r : Run) (a b : String) : Run :=
  let la := r.workspace.label a
  let lb := r.workspace.label b
  let (set, combined) := match execute r.workspace .union a b with
    | .ok (.set set, w) => (set, { r with workspace := w })
    | .ok (.relation .., _) => (.finite [], r)
    | .error e => (.finite [], r.note "Error while combining"
        (s!"{la} and {lb} could not be combined ({e.message}). " ++
          "The empty set is used instead."))
  (combined.push set).note "Combining sets" (Operation.union.written la lb ++ " = " ++ set.shown)

/-- Combines all operands by union, the latest ones first. `below` is the stack below `top`. -/
def mergeAll (execute : Workspace.Executor) (r : Run) (top : String) :
    (below : List String) → Run
  | [] => { r with stack := [top] }
  | next :: below =>
    let merged := { r with stack := below }.mergePair execute next top
    mergeAll execute merged (temporaryName r.temporaries) below

/-- Makes a single operand of a stack that does not hold exactly one. -/
def recover (execute : Workspace.Executor) (r : Run) : Run :=
  let count := r.stack.length
  let r := r.warn s!"set expression left {count} values on the stack; recovering"
  let r := r.note "Problem detected in the evaluation"
    (s!"The evaluation produced {count} values instead of one.\n" ++
      "This usually means an operator is missing or left over.")
  match r.stack with
  | [] => (r.push (.finite [])).note "Empty stack"
      "There is no value on the stack. The empty set is used as the result."
  | top :: below =>
    let r := r.note "Recovery: combining results"
      s!"The {count} sets are combined with union to obtain a single result."
    r.mergeAll execute top below

def kindText : StoredSet → String
  | .finite _ => "Finite set"
  | .symbolic _ => "Infinite set"

def finish (r : Run) : Finished :=
  match r.stack with
  | [last] =>
    let noted := r.note "Finish the evaluation"
      ("The expression has been fully evaluated.\n" ++
        s!"Final value on the stack: {r.workspace.label last}")
    match r.workspace.find last with
    | .error e => noted.failed e
    | .ok set =>
      let answer := Answer.ofSet set
      (noted.note "Final result" s!"{kindText set}: {answer.representation}").answered answer
  | _ => r.failed (.malformedExpression .notOneValue)

/-- The answer of a run that has followed all instructions. More or less than one operand is an
error, unless explanations are asked for. -/
def conclude (execute : Workspace.Executor) (r : Run) : Finished :=
  if r.stack.length ≠ 1 && r.workspace.explains then (r.recover execute).finish else r.finish

def noteStart (r : Run) : Run :=
  r.note "Start postfix evaluation"
    "Each token of the postfix expression is processed from left to right."

def evaluate (execute : Workspace.Executor) (r : Run) (instructions : List Instruction) :
    Finished :=
  match r.noteStart.followAll execute instructions with
  | .running last => last.conclude execute
  | .finished outcome => outcome

end Run

end DiscreteMath.SetAlgebra
