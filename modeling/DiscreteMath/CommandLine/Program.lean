import DiscreteMath.CommandLine.Command
import DiscreteMath.Proposition.TruthTable
import DiscreteMath.Sequence.Induction
import DiscreteMath.SetAlgebra.Evaluation

/-!
# The program

What the program prints for its arguments. Warnings and errors go to the error stream. An error
ends the program with code 1, wrong usage with code 2; what was printed before stays. A program that
breaks off ends with code 101.
-/

namespace DiscreteMath.CommandLine

structure Output where
  exitCode : Nat
  printed : List String
  warnings : List String
  errors : List String
  deriving Repr, DecidableEq

namespace Output

def done (printed : List String) : Output := ⟨0, printed, [], []⟩

def failed (printed : List String) (message : String) : Output := ⟨1, printed, [], [message]⟩

def warning (output : Output) (warnings : List String) : Output :=
  { output with warnings := warnings ++ output.warnings }

end Output

/-- The exit code of a program that breaks off. -/
def brokenOff : Nat := 101

def runTruthTable (expression : String) (maxVariables : Nat) : Output :=
  let count := (Proposition.variableNames expression.toList).length
  if maxVariables < count then
    .failed [] s!"The formula has {count} variables; at most {maxVariables} are allowed."
  else match Proposition.truthTable expression.toList with
    | .ok table => .done (Proposition.tableLines table)
    | .error .capacityOverflow =>
      ⟨brokenOff, [], [], [Proposition.TableError.capacityOverflow.message]⟩
    | .error e => .failed [] e.message

/-- The lines for an evaluation: its steps with numbers, an empty line if there are any, and the
answer. -/
def evaluationLines (evaluation : SetAlgebra.Evaluation) : List String :=
  let steps := evaluation.steps.zipIdx.map fun (step, i) => s!"{i + 1}. {step.text}"
  steps ++ (if steps.isEmpty then [] else [""]) ++ [evaluation.answer.text]

def listingLine : String × SetAlgebra.Answer → String
  | (name, .symbolic definition _ _) => s!"{name}: {definition}"
  | (name, answer) => s!"{name} = {answer.text}"

/-- The workspace with the sets defined and removed, or the message of the first error. -/
def prepare (definitions : List (String × String)) (removed : List String) (steps : Bool) :
    Except String SetAlgebra.Workspace := do
  let orMessage {α : Type} (result : Except SetAlgebra.SetError α) : Except String α :=
    result.mapError SetAlgebra.SetError.message
  let defined ← definitions.foldlM
    (fun w (name, elements) => orMessage (w.addLiteral name elements))
    (SetAlgebra.Workspace.standard.setExplains steps)
  removed.foldlM (fun w name =>
    if SetAlgebra.predefinedNames.contains name then
      .error s!"The predefined set '{name}' cannot be removed."
    else orMessage (w.remove name)) defined

/-- Prints the sets, if asked for, and the value of the expression, if there is one. -/
def runSets (definitions : List (String × String)) (removed : List String) (steps list : Bool)
    (expression : Option String) : Output :=
  match prepare definitions removed steps with
  | .error message => .failed [] message
  | .ok w =>
    let listed := if list then w.all.map listingLine else []
    match expression with
    | none => .done listed
    | some text =>
      let outcome := w.evaluate text
      match outcome.result with
      | .error e => (Output.failed listed e.message).warning outcome.warnings
      | .ok evaluation =>
        ⟨0, listed ++ evaluationLines evaluation, outcome.warnings,
          evaluation.error.toList.map SetAlgebra.SetError.message⟩

def leftPadded (width : Nat) (text : String) : String :=
  String.ofList (List.replicate (width - text.length) ' ') ++ text

def summaryLines (summary : Sequence.Summary) : List String :=
  let term : Int × Float → String := fun (k, value) =>
    s!"k = {leftPadded 4 (toString k)}  {Number.fixed 4 value}"
  s!"a(k) = {summary.formula.text}" :: summary.totals.terms.map term ++
    [s!"Σ = {Number.fixed 4 summary.totals.sum}",
      s!"Π = {Sequence.productText summary.totals.product}"]

def reportLines (lower upper : Int) (report : Sequence.Report) : List String :=
  ["", s!"Base case: {report.baseCase}", s!"Inductive hypothesis: {report.hypothesis}",
    s!"Inductive step: {report.inductiveStep}",
    match report.counterexample with
    | none => s!"The closed form matches every partial sum for k = {lower}..{upper}."
    | some k => s!"The closed form fails at k = {k}."]

def runSequence (formula : String) (lower upper : Int) (maxTerms : Nat)
    (closedForm : Option String) : Output :=
  let outcome := Sequence.summarize maxTerms formula.toList lower upper
  let output := match outcome.summary, closedForm with
    | .error e, _ => Output.failed [] e.message
    | .ok summary, none => .done (summaryLines summary)
    | .ok summary, some closed =>
      match Sequence.explainInduction maxTerms formula.toList closed.toList lower upper with
      | .error e => .failed (summaryLines summary) e.message
      | .ok report => .done (summaryLines summary ++ reportLines lower upper report)
  output.warning (outcome.clampedAt.map Sequence.clampWarning)

def Command.run : Command → Output
  | truthTable expression maxVariables => runTruthTable expression maxVariables
  | sets definitions removed steps list expression =>
    runSets definitions removed steps list expression
  | sequence formula lower upper maxTerms closedForm =>
    runSequence formula lower upper maxTerms closedForm

def version : String := "0.1.0"

/-- What is printed if there is no command to run. -/
def Ending.output : Ending → Output
  | usage e => ⟨2, [], [], [e.message]⟩
  | help summary => .done [summary]
  | version => .done [programName ++ " " ++ CommandLine.version]

def run (arguments : List String) : Output :=
  match Command.read arguments with
  | .ok command => command.run
  | .error ending => ending.output

end DiscreteMath.CommandLine
