import DiscreteMath.Number.Literal
import DiscreteMath.Text.ControlSequence

/-!
# Arguments of a command

A command takes options, which begin with two dashes, and positional arguments in a fixed order.
Some options also have a letter; letters may stand together after one dash. The value of an
argument is checked when the next argument begins or at the end, so that an argument that is not
expected at all is reported first. An option that asks for help or for the version ends the
reading at once, but only if all arguments before it are in order.
-/

namespace DiscreteMath.CommandLine

open Text

def programName : String := "discreta"

def programSummary : String :=
  programName ++ " is a set of calculators for discrete mathematics: truth tables, set algebra " ++
    "and successions"

inductive UsageError where
  | noArguments
  | missingCommand
  | unknownCommand (name : String)
  | unexpectedArgument (argument : String)
  | missingValue (shown : String)
  | unneededValue (value shown : String)
  | repeated (shown : String)
  | invalidValue (value shown reason : String)
  | missingArguments
  deriving Repr, DecidableEq

namespace UsageError

/-- A text that the user gave, set off by control sequences. -/
def emphasized (text : String) : String := "\x1b[33m" ++ text ++ "\x1b[0m"

def styled : UsageError → String
  | noArguments => programSummary
  | missingCommand => s!"error: '{programName}' requires a subcommand but one was not provided"
  | unknownCommand name => s!"error: unrecognized subcommand '{emphasized name}'"
  | unexpectedArgument argument => s!"error: unexpected argument '{emphasized argument}' found"
  | missingValue shown => s!"error: a value is required for '{shown}' but none was supplied"
  | unneededValue value shown =>
    s!"error: unexpected value '{emphasized value}' for '{shown}' found; no more were expected"
  | repeated shown => s!"error: the argument '{shown}' cannot be used multiple times"
  | invalidValue value shown reason =>
    s!"error: invalid value '{emphasized value}' for '{shown}': {reason}"
  | missingArguments => "error: the following required arguments were not provided:"

def hint : String := "\n\nFor more information, try '\x1b[1m--help\x1b[0m'."

/-- The message as plain text. Control sequences in what the user gave are left out with those of
the message itself; one that is left open takes what follows it away. -/
def message (e : UsageError) : String :=
  String.ofList (withoutControls (e.styled ++ hint).toList)

end UsageError

/-- Why reading the arguments ends without a command. -/
inductive Ending where
  | usage (error : UsageError)
  | help (summary : String)
  | version
  deriving Repr, DecidableEq

/-- What the value of an argument must be. -/
inductive Kind where
  | text
  /-- The definition of a set, a name and its elements with an equals sign between them. -/
  | definition
  | integer (least greatest : Int)
  deriving Repr, DecidableEq

inductive Value where
  | text (content : String)
  | definition (name elements : String)
  | integer (number : Int)
  deriving Repr, DecidableEq

/-- The definition of a set, cut at its first equals sign. -/
def readDefinition (text : String) : Except String Value :=
  match text.toList.dropWhile (· != '=') with
  | [] => .error s!"expected NAME=ELEMENTS, got '{text}'"
  | _ :: elements =>
    let name := trim (text.toList.takeWhile (· != '='))
    if name.isEmpty then .error "the set name cannot be empty"
    else .ok (.definition (String.ofList name) (String.ofList (trim elements)))

def integerReason : Number.IntegerFault → String
  | .empty => "cannot parse integer from empty string"
  | .invalidDigit => "invalid digit found in string"
  | .tooLarge => "number too large to fit in target type"
  | .tooSmall => "number too small to fit in target type"

def Kind.read : Kind → String → Except String Value
  | text, content => .ok (.text content)
  | definition, content => readDefinition content
  | integer least greatest, content =>
    match Number.readInteger least greatest content.toList with
    | .ok number => .ok (.integer number)
    | .error fault => .error (integerReason fault)

inductive Role where
  /-- It has a value. -/
  | value (kind : Kind)
  /-- It is there or not. -/
  | switch
  /-- It asks what the command is for. -/
  | help
  /-- It asks for the version of the program. -/
  | version
  deriving Repr, DecidableEq

/-- An option or a positional argument: its name, how messages show it, and its letter. -/
structure Argument where
  name : String
  shown : String
  letter? : Option Char
  role : Role
  repeatable : Bool
  deriving Repr, DecidableEq

namespace Argument

/-- An argument that has a value and is given at most once. -/
def valued (name shown : String) (kind : Kind) : Argument :=
  ⟨name, shown, none, .value kind, false⟩

/-- An option that has a value and may be given any number of times. -/
def list (name shown : String) (kind : Kind) : Argument :=
  { valued name shown kind with repeatable := true }

def switch (name : String) : Argument := ⟨name, "--" ++ name, none, .switch, false⟩

def verbose : Argument := ⟨"verbose", "--verbose...", some 'v', .switch, true⟩

def help : Argument := ⟨"help", "--help", some 'h', .help, false⟩

/-- The option that asks for the version, which stands before the command only. -/
def version : Argument := ⟨"version", "--version", some 'V', .version, false⟩

def kind? (argument : Argument) : Option Kind :=
  match argument.role with
  | .value kind => some kind
  | _ => none

end Argument

inductive Form where
  /-- Two dashes: all that follows is positional. -/
  | separator
  | long (name : String) (value? : Option String)
  | short (letters : List Char)
  | plain

/-- Goes by the dashes that the argument begins with. -/
def Form.of (argument : String) : Form :=
  match argument.toList with
  | ['-', '-'] => separator
  | '-' :: '-' :: rest =>
    let name := String.ofList (rest.takeWhile (· != '='))
    match rest.dropWhile (· != '=') with
    | [] => long name none
    | _ :: value => long name (some (String.ofList value))
  | '-' :: c :: rest => short (c :: rest)
  | _ => plain

/-- The text after a minus sign looks like a number: digits, perhaps a point among them, and
perhaps an exponent. -/
def looksNumeric (letters : List Char) : Bool :=
  let isMark := fun c => c == 'e' || c == 'E'
  let significand := letters.takeWhile (!isMark ·)
  let isNumber := significand.all (fun c => c.isDigit || c == '.') &&
    significand.count '.' ≤ 1 && significand.head? != some '.' && !significand.isEmpty
  match letters.dropWhile (!isMark ·) with
  | [] => isNumber
  | _ :: exponent => isNumber && !exponent.isEmpty && exponent.all Char.isDigit

/-- How far the arguments of a command have been read. -/
structure Reading where
  /-- What the command is for. -/
  summary : String
  options : List Argument
  /-- The positional arguments still to come. -/
  positionals : List Argument
  /-- Every argument from here on is positional. -/
  literal : Bool
  /-- The argument begun last and its value, if it has come, both unchecked. -/
  pending : Option (Argument × Option String)
  /-- The values by the names of their arguments, the latest first. -/
  values : List (String × Value)

namespace Reading

def start (summary : String) (options positionals : List Argument) : Reading :=
  ⟨summary, [.verbose, .help] ++ options, positionals, false, none, []⟩

def accept (r : Reading) (argument : Argument) (value? : Option String) : Except Ending Reading :=
  if !argument.repeatable && (r.values.lookup argument.name).isSome then
    .error (.usage (.repeated argument.shown))
  else match argument.kind?, value? with
    | none, _ => .ok { r with values := (argument.name, .text "") :: r.values }
    | some _, none => .error (.usage (.missingValue argument.shown))
    | some kind, some content =>
      match kind.read content with
      | .ok value => .ok { r with values := (argument.name, value) :: r.values }
      | .error reason => .error (.usage (.invalidValue content argument.shown reason))

/-- Checks the argument begun last. -/
def settle (r : Reading) : Except Ending Reading :=
  match r.pending with
  | none => .ok r
  | some (argument, value?) =>
    if argument.kind?.isSome && value?.isNone then .error (.usage (.missingValue argument.shown))
    else { r with pending := none }.accept argument value?

def positional (r : Reading) (content : String) : Except Ending Reading :=
  match r.positionals with
  | [] => .error (.usage (.unexpectedArgument content))
  | next :: rest => do
    let settled ← r.settle
    return { settled with positionals := rest, pending := some (next, some content) }

/-- The value of the option begun last, if it still needs one, or a positional argument. -/
def word (r : Reading) (content : String) : Except Ending Reading :=
  match r.pending with
  | some (argument, none) => .ok { r with pending := some (argument, some content) }
  | _ => r.positional content

def begin (r : Reading) (option : Argument) : Except Ending Reading := do
  let settled ← r.settle
  match option.role with
  | .value _ => return { settled with pending := some (option, none) }
  | .switch => settled.accept option none
  | .help => .error (.help settled.summary)
  | .version => .error .version

def attach (r : Reading) (option : Argument) (value : String) : Except Ending Reading :=
  match option.kind? with
  | none => .error (.usage (.unneededValue value option.shown))
  | some _ => do (← r.settle).accept option (some value)

def long (r : Reading) (name : String) (value? : Option String) : Except Ending Reading :=
  match r.options.find? (·.name == name), value? with
  | none, _ => .error (.usage (.unexpectedArgument ("--" ++ name)))
  | some option, none => r.begin option
  | some option, some value => r.attach option value

def letter (r : Reading) (c : Char) : Except Ending Reading :=
  match r.options.find? (·.letter? == some c) with
  | none => .error (.usage (.unexpectedArgument (String.ofList ['-', c])))
  | some option => r.begin option

/-- The next positional argument is an integer, which may have a minus sign. -/
def expectsInteger (r : Reading) : Bool :=
  match r.positionals.head?.bind Argument.kind? with
  | some (.integer ..) => true
  | _ => false

def step (r : Reading) (content : String) : Except Ending Reading :=
  if r.literal then r.positional content
  else match Form.of content with
    | .separator => .ok { r with literal := true }
    | .long name value? => r.long name value?
    | .short letters =>
      if r.expectsInteger && looksNumeric letters then r.word content
      else letters.foldlM letter r
    | .plain => r.word content

def readAll (r : Reading) (arguments : List String) : Except Ending Reading := do
  (← arguments.foldlM step r).settle

def valuesOf (r : Reading) (name : String) : List Value :=
  (r.values.filter (·.1 == name)).reverse.map Prod.snd

def text? (r : Reading) (name : String) : Option String :=
  match r.values.lookup name with
  | some (.text content) => some content
  | _ => none

def integer? (r : Reading) (name : String) : Option Int :=
  match r.values.lookup name with
  | some (.integer number) => some number
  | _ => none

def has (r : Reading) (name : String) : Bool := (r.values.lookup name).isSome

end Reading

def required (value? : Option α) : Except Ending α :=
  match value? with
  | some value => .ok value
  | none => .error (.usage .missingArguments)

end DiscreteMath.CommandLine
