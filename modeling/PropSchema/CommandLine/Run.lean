import PropSchema.CommandLine.Arguments
import PropSchema.Schema.Storage
import PropSchema.Session.Basic

namespace PropSchema.CommandLine

inductive Stage
  | extract
  | load (path : Path)
  | update
  | write
  deriving DecidableEq, Repr

def Stage.failure : Stage → String
  | .extract => "Failed to extract component props"
  | .load path => "Failed to load " ++ path.text
  | .update => "Failed to update component props"
  | .write => "Failed to write output"

structure Failure where
  stage : Stage
  cause : Error
  deriving DecidableEq, Repr

/-- Changes to the disk stay, even if a failure follows them. There is no result if the work of a
session has none. -/
abbrev CommandM := ExceptT Failure (StateT Disk Option)

def Stage.attempt {α : Type} (stage : Stage) (result : Except Error α) : CommandM α :=
  MonadExcept.ofExcept (result.mapError (⟨stage, ·⟩))

def emit (text : String) : Option Path → CommandM String
  | some path => ExceptT.mk fun d =>
    let (result, d) := (Schema.writeText path text).run d
    some ((result.map fun _ => "").mapError (⟨.write, ·⟩), d)
  | none => return text

def Stage.work (stage : Stage) (session : Session) (work : SessionM Nat) : CommandM Session := do
  let (result, session) ← liftM (work.run session)
  stage.attempt (result.map fun _ => session)

def Command.run : Command → CommandM String
  | .extract r => do
    let d ← get
    let options := Options.combine r.sourceDir r.flags (Config.load d)
    let session ← Stage.extract.work { options } (Session.build d)
    emit (session.schema.render options.constantName r.format) r.output
  | .update r => do
    let d ← get
    let options := Options.combine r.sourceDir r.flags (Config.load d)
    let schema ← (Stage.load r.output).attempt (Schema.load d r.output)
    let session ← Stage.update.work { options, schema } (Session.update d r.files)
    emit (session.schema.render options.constantName .json) (some r.output)

structure Outcome where
  code : Nat
  output : String := ""
  error : Option String := none
  deriving DecidableEq, Repr

def versionText : String := "propmap 0.1.0\n"

def helpText : String :=
  "Extract component prop schemas from TypeScript declarations\n\n" ++
  "Usage: propmap <COMMAND>\n\n" ++
  "Commands:\n" ++
  "  extract  Extract the prop schema of every component under a directory\n" ++
  "  update   Re-extract changed files into an existing JSON schema\n" ++
  "  help     Print this message or the help of the given subcommand(s)\n\n" ++
  "Options:\n" ++
  "  -h, --help     Print help\n" ++
  "  -V, --version  Print version\n"

def Stop.outcome : Stop → Outcome
  | .help => { code := 0, output := helpText }
  | .version => { code := 0, output := versionText }
  | .usage e => { code := 2, error := some ("error: " ++ e.message) }

def Outcome.ofResult : Except Failure String → Outcome
  | .ok output => { code := 0, output }
  | .error failure => { code := 1, error := some ("Error: " ++ failure.stage.failure) }

def run (tsconfig : Option String) (words : List String) : StateT Disk Option Outcome := do
  match parse tsconfig words with
  | .ok command => return .ofResult (← command.run.run)
  | .error stop => return stop.outcome

end PropSchema.CommandLine
