import DiscreteMath.CommandLine.Arguments

/-!
# Commands

There are three commands: the truth table of a formula, set algebra, and the terms of a sequence.
A fourth word in their place, `help`, asks what the program or one of its commands is for.
-/

namespace DiscreteMath.CommandLine

inductive Command where
  | truthTable (expression : String) (maxVariables : Nat)
  | sets (definitions : List (String × String)) (removed : List String) (steps list : Bool)
      (expression : Option String)
  | sequence (formula : String) (lower upper : Int) (maxTerms : Nat) (closedForm : Option String)
  deriving Repr, DecidableEq

def naturalKind : Kind := .integer 0 Number.greatestNatural

def integerKind : Kind := .integer Number.leastInteger Number.greatestInteger

namespace Command

def readTruthTable (arguments : List String) : Except Ending Command := do
  let r ← (Reading.start "Prints the truth table of a propositional formula"
    [.valued "max-variables" "--max-variables <MAX_VARIABLES>" naturalKind]
    [.valued "expression" "<EXPRESSION>" .text]).readAll arguments
  let expression ← required (r.text? "expression")
  return truthTable expression ((r.integer? "max-variables").getD 16).toNat

def readSets (arguments : List String) : Except Ending Command := do
  let r ← (Reading.start "Evaluates a set-algebra expression"
    [.list "set" "--set <NAME=ELEMENTS>" .definition, .list "remove" "--remove <NAME>" .text,
      .switch "steps", .switch "list"]
    [.valued "expression" "[EXPRESSION]" .text]).readAll arguments
  let definitions := (r.valuesOf "set").filterMap fun
    | .definition name elements => some (name, elements)
    | _ => none
  let removed := (r.valuesOf "remove").filterMap fun
    | .text name => some name
    | _ => none
  return sets definitions removed (r.has "steps") (r.has "list") (r.text? "expression")

def readSequence (arguments : List String) : Except Ending Command := do
  let r ← (Reading.start "Evaluates a formula in `k` over a range and prints its sum and product"
    [.valued "max-terms" "--max-terms <MAX_TERMS>" naturalKind,
      .valued "closed-form" "--closed-form <FORMULA>" .text]
    [.valued "formula" "<FORMULA>" .text, .valued "lower" "<LOWER>" integerKind,
      .valued "upper" "<UPPER>" integerKind]).readAll arguments
  let formula ← required (r.text? "formula")
  let lower ← required (r.integer? "lower")
  let upper ← required (r.integer? "upper")
  return sequence formula lower upper ((r.integer? "max-terms").getD 100).toNat
    (r.text? "closed-form")

def readers : List (String × (List String → Except Ending Command)) :=
  [("truth-table", readTruthTable), ("sets", readSets), ("succession", readSequence)]

/-- Help is asked for on the program or on one command, by its name. Commands have no commands of
their own, so that a second name is unknown. -/
def readHelp : List String → Except Ending Command
  | [] => .error (.help programSummary)
  | topic :: more =>
    let known := ("help", fun _ =>
      .error (.help "Prints this message or the help of the given subcommand(s)")) :: readers
    match known.lookup topic, more with
    | none, _ => .error (.usage (.unknownCommand topic))
    | some _, name :: _ => .error (.usage (.unknownCommand name))
    | some reader, [] => reader [Argument.help.shown]

/-- What may stand in the place of a command, by name. -/
def entries : List (String × (List String → Except Ending Command)) :=
  ("help", readHelp) :: readers

/-- Finds the command, after any number of options. Behind two dashes no command is accepted. -/
def readAfter (r : Reading) : List String → Except Ending Command
  | [] => .error (.usage (if r.has Argument.verbose.name then .missingCommand else .noArguments))
  | argument :: rest =>
    match r.literal, Form.of argument, entries.lookup argument with
    | false, .plain, some reader => reader rest
    | true, _, some _ => .error (.usage (.unexpectedArgument argument))
    | true, _, none | false, .plain, none => .error (.usage (.unknownCommand argument))
    | false, _, _ => do readAfter (← r.step argument) rest

def read (arguments : List String) : Except Ending Command :=
  readAfter (.start programSummary [.version] []) arguments

end Command

end DiscreteMath.CommandLine
