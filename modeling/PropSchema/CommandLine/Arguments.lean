import PropSchema.Config.Options
import PropSchema.Schema.Document

namespace PropSchema.CommandLine

structure ExtractRequest where
  sourceDir : Path
  flags : Flags
  output : Option Path
  format : OutputFormat
  deriving DecidableEq, Repr

structure UpdateRequest where
  sourceDir : Path
  flags : Flags
  output : Path
  files : List Path
  deriving DecidableEq, Repr

inductive Command
  | extract (request : ExtractRequest)
  | update (request : UpdateRequest)
  deriving DecidableEq, Repr

inductive UsageError
  | missingCommand
  | unknownCommand
  | missingArgument
  | unknownArgument
  | invalidValue
  | repeatedArgument
  | superfluousValue
  deriving DecidableEq, Repr

def UsageError.message : UsageError → String
  | .missingCommand => "a command is required"
  | .unknownCommand => "unrecognized command"
  | .missingArgument => "a required argument was not provided"
  | .unknownArgument => "unexpected argument"
  | .invalidValue => "invalid or missing value"
  | .repeatedArgument => "an argument cannot be used multiple times"
  | .superfluousValue => "unexpected value for a flag"

inductive Stop
  | help
  | version
  | usage (error : UsageError)
  deriving DecidableEq, Repr

inductive CommandName
  | extract
  | update
  deriving DecidableEq, Repr

def CommandName.ofWord? : String → Option CommandName
  | "extract" => some .extract
  | "update" => some .update
  | _ => none

inductive Argument
  | sourceDir
  | files
  | tsconfig
  | output
  | format
  | constant
  | verbose
  | help
  deriving DecidableEq, Repr

namespace Argument

def ofLong? : String → Option Argument
  | "tsconfig" => some .tsconfig
  | "output" => some .output
  | "format" => some .format
  | "constant" => some .constant
  | "verbose" => some .verbose
  | "help" => some .help
  | _ => none

def ofShort? : Char → Option Argument
  | 'o' => some .output
  | 'f' => some .format
  | 'v' => some .verbose
  | 'h' => some .help
  | _ => none

def isOf (command : CommandName) : Argument → Bool
  | .format | .constant => command == .extract
  | .files => command == .update
  | _ => true

def isFlag : Argument → Bool
  | .verbose | .help => true
  | _ => false

def accepts : Argument → String → Bool
  | .format, value => (OutputFormat.ofName? value).isSome
  | .constant, _ => true
  | _, value => ! value.isEmpty

end Argument

/-- What the words read so far give: checked values, the argument whose value is held back, and
whether a `--` has ended the options. -/
structure Scan where
  given : List (Argument × List String) := []
  held : Option (Argument × List String) := none
  ended : Bool := false
  deriving DecidableEq, Repr

namespace Scan

def fail {α : Type} (e : UsageError) : Except Stop α := .error (.usage e)

def values (s : Scan) (a : Argument) : List String :=
  s.given.flatMap fun (b, values) => if b = a then values else []

def has (s : Scan) (a : Argument) : Bool := s.given.any (·.1 == a)

def holds (s : Scan) (a : Argument) : Bool := s.held.any (·.1 == a)

def give (s : Scan) (a : Argument) (values : List String) : Except Stop Scan :=
  if s.has a && a != .files then fail .repeatedArgument
  else if values.all a.accepts then .ok { s with given := s.given ++ [(a, values)] }
  else fail .invalidValue

def settle (s : Scan) : Except Stop Scan :=
  match s.held with
  | none => .ok s
  | some (_, []) => fail .invalidValue
  | some (a, values) => ({ s with held := none } : Scan).give a values

def hold (s : Scan) (a : Argument) (values : List String) : Except Stop Scan := do
  let s ← s.settle
  return { s with held := some (a, values) }

def flag (s : Scan) (a : Argument) : Except Stop Scan := do
  let s ← s.settle
  if a = .help then .error .help else s.give a []

def option (s : Scan) (a : Argument) : Option String → Except Stop Scan
  | some value => do (← s.settle).give a [value]
  | none => s.hold a []

def word (command : CommandName) (s : Scan) (w : String) : Except Stop Scan :=
  match s.held, s.ended with
  | some (a, []), false => .ok { s with held := some (a, [w]) }
  | held, _ =>
    if ! (s.has .sourceDir || s.holds .sourceDir) then s.hold .sourceDir [w]
    else if ! Argument.files.isOf command then fail .unknownArgument
    else match held with
      | some (.files, files) => .ok { s with held := some (.files, files ++ [w]) }
      | _ => s.hold .files [w]

def long (command : CommandName) (s : Scan) (body : String) : Except Stop Scan :=
  let (name, value) := match Text.cut? "=" body with
    | some (name, value) => (name, some value)
    | none => (body, none)
  match (Argument.ofLong? name).filter (·.isOf command) with
  | none => fail .unknownArgument
  | some a =>
    if ! a.isFlag then s.option a value
    else if value.isSome then fail .superfluousValue
    else s.flag a

def short (command : CommandName) : Scan → List Char → Except Stop Scan
  | s, [] => .ok s
  | s, c :: rest =>
    match (Argument.ofShort? c).filter (·.isOf command) with
    | none => fail .unknownArgument
    | some a =>
      if a.isFlag then do short command (← s.flag a) rest
      else match rest with
        | [] => s.option a none
        | '=' :: value => s.option a (some (String.ofList value))
        | value => s.option a (some (String.ofList value))

def read (command : CommandName) (s : Scan) (w : String) : Except Stop Scan :=
  if s.ended then s.word command w
  else match w.toList with
    | ['-', '-'] => .ok { s with ended := true }
    | '-' :: '-' :: body => s.long command (String.ofList body)
    | '-' :: c :: rest => s.short command (c :: rest)
    | _ => s.word command w

def withDefault (s : Scan) (tsconfig : Option String) : Except Stop Scan :=
  match tsconfig with
  | some value => if s.has .tsconfig then .ok s else s.give .tsconfig [value]
  | none => .ok s

def path? (s : Scan) (a : Argument) : Option Path := (s.values a).head?.map (⟨·⟩)

def required (s : Scan) (a : Argument) : Except Stop Path :=
  (s.path? a).elim (fail .missingArgument) .ok

def flags (s : Scan) : Flags :=
  { tsconfig := s.path? .tsconfig
    constantName := (s.values .constant).head?
    verbose := s.has .verbose }

def command (s : Scan) : CommandName → Except Stop Command
  | .extract => do
    let format := (s.values .format).head?.bind OutputFormat.ofName?
    return .extract {
      sourceDir := ← s.required .sourceDir
      flags := s.flags
      output := s.path? .output
      format := format.getD .json }
  | .update => do
    let sourceDir ← s.required .sourceDir
    let output ← s.required .output
    if ! s.has .files then fail .missingArgument
    return .update { sourceDir, flags := s.flags, output, files := (s.values .files).map (⟨·⟩) }

end Scan

def parseArguments (tsconfig : Option String) (name : CommandName) (words : List String) :
    Except Stop Command := do
  let s ← words.foldlM (Scan.read name) {}
  let s ← (← s.settle).withDefault tsconfig
  s.command name

def parseHelp : List String → Stop
  | [] => .help
  | name :: rest =>
    if (CommandName.ofWord? name).isSome || name == "help" then
      if rest.isEmpty then .help else .usage .unknownCommand
    else .usage .unknownCommand

def parseGlobal (w : String) : Stop :=
  match w.toList with
  | '-' :: '-' :: body =>
    let (name, value) := match Text.cut? "=" (String.ofList body) with
      | some (name, value) => (name, some value)
      | none => (String.ofList body, none)
    if name == "help" || name == "version" then
      if value.isSome then .usage .superfluousValue
      else if name == "help" then .help else .version
    else .usage .unknownArgument
  | '-' :: 'h' :: _ => .help
  | '-' :: 'V' :: _ => .version
  | '-' :: _ :: _ => .usage .unknownArgument
  | _ => .usage .unknownCommand

def parse (tsconfig : Option String) : List String → Except Stop Command
  | [] | ["--"] => .error (.usage .missingCommand)
  | "help" :: rest => .error (parseHelp rest)
  | "--" :: w :: _ =>
    .error (.usage (if (CommandName.ofWord? w).isSome || w == "help" then .unknownArgument
      else .unknownCommand))
  | w :: rest =>
    match CommandName.ofWord? w with
    | some name => parseArguments tsconfig name rest
    | none => .error (parseGlobal w)

end PropSchema.CommandLine
