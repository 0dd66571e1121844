import DiscreteMath.SetAlgebra.Run

/-!
# Evaluating set expressions

An expression is cut into tokens, brought into postfix order and run. With explanations an
evaluation never fails: unknown sets are registered as empty, and an error is reported beside an
empty answer. Temporary sets do not outlive the evaluation.
-/

namespace DiscreteMath.SetAlgebra

/-- What an evaluation leaves behind, whether it succeeds or not. -/
structure Outcome where
  result : Except SetError Evaluation
  workspace : Workspace
  warnings : List String

namespace Run

def undefinedNames (r : Run) (tokens : List Token) : List String :=
  (tokens.filterMap fun
    | .name letter => if r.workspace.registry.contains letter then none else some letter
    | _ => none).eraseDups

def defineEmpty (r : Run) (name : String) : Run :=
  let warned := r.warn s!"set '{name}' is undefined; registering it as empty"
  { warned with workspace := r.workspace.store name (.finite []) }.note "Automatic set definition"
    s!"The set {name} = ∅ was created automatically so the evaluation can continue."

def defineMissing (r : Run) (tokens : List Token) : Except SetError Run :=
  match r.undefinedNames tokens with
  | [] => .ok r
  | names =>
    if r.workspace.explains then
      let noted := r.note "Undefined sets detected"
        ("These sets are not defined: " ++ Text.join ", " names ++
          "\nThey need to be defined before they are used in an expression.")
      .ok (names.foldl defineEmpty noted)
    else .error (.undefinedSets names)

/-- The instructions of an expression. With explanations, one without operands has none. -/
def instructions (r : Run) (tokens : List Token) : Except SetError (List Instruction) :=
  let isName := fun
    | Token.name _ => true
    | _ => false
  if r.workspace.explains && !tokens.any isName then .ok [] else toPostfix tokens

def noteTokens (r : Run) (expression : String) : Run :=
  let text := expression.toList
  let ignored := ignoredTexts text
  let r := r.note "Tokenize the expression"
    (s!"Original expression: {expression}\n" ++
      "Each symbol is identified as an individual token.")
  let r := { r with warnings := r.warnings ++ ignored.map ignoredWarning }
  let r := r.note "Identified tokens"
    ("Tokens: " ++ Text.join " " ((tokens text).map Token.text) ++
      "\nThis includes operands (sets), operators and parentheses.")
  if ignored.isEmpty then r
  else r.note "Ignored symbols"
    ("These symbols are not part of a set expression and were skipped: " ++
      Text.join " " ignored)

def noteConversion (r : Run) : Run :=
  r.note "Convert the expression to postfix notation"
    ("The shunting-yard algorithm rewrites the infix expression in postfix " ++
      "(reverse Polish) notation.")

def notePostfix (r : Run) (instructions : List Instruction) : Run :=
  r.note "Expression in postfix notation"
    ("Postfix: " ++ Text.join " " (instructions.map Instruction.text) ++
      "\nOperators now come after their operands, which makes evaluation straightforward.")

/-- Evaluates an expression. One without tokens is the empty set. -/
def evaluateInfix (execute : Workspace.Executor) (r : Run) (expression : String) : Finished :=
  let found := tokens expression.toList
  let r := r.noteTokens expression
  if found.isEmpty then
    (r.note "Empty expression"
      "The expression contains no sets or operators to process.").answered (.finite [])
  else match r.defineMissing found with
    | .error e => r.failed e
    | .ok r =>
      let r := r.noteConversion
      match r.instructions found with
      | .error e => r.failed e
      | .ok instructions => (r.notePostfix instructions).evaluate execute instructions

end Run

namespace Workspace

/-- Without the temporary sets. The memo is emptied if there are any. -/
def dropTemporaries (w : Workspace) : Workspace :=
  if w.registry.hasTemporaries then w.withRegistry w.registry.withoutTemporaries else w

def evaluateBy (execute : Executor) (w : Workspace) (expression : String) : Outcome :=
  let ⟨r, result⟩ := (Run.start w).evaluateInfix execute expression
  let left := r.workspace.dropTemporaries
  match result with
  | .ok answer => ⟨.ok ⟨answer, if w.explains then r.journal else [], none⟩, left, r.warnings⟩
  | .error e =>
    if w.explains then
      let r := r.warn s!"expression '{expression}' failed in step-by-step mode: {e.message}"
      let r := r.note "Evaluation error"
        s!"An error occurred: {e.message}\nAn empty set is returned as the result."
      ⟨.ok ⟨.finite [], r.journal, some e⟩, left, r.warnings⟩
    else ⟨.error e, left, r.warnings⟩

/-- Evaluates an expression such as `A ∪ (B ∩ C)ᶜ` or `A ⊆ B`. -/
def evaluate (w : Workspace) (expression : String) : Outcome := w.evaluateBy apply expression

end Workspace

end DiscreteMath.SetAlgebra
