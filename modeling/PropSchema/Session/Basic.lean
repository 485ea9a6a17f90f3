import PropSchema.Component.Props
import PropSchema.Component.Walk
import PropSchema.Config.Lookup
import PropSchema.Module.Loading
import PropSchema.Schema.Document

namespace PropSchema

def Program.entries (P : Program) (root : Path) (files : List Path) : Option (List SchemaEntry) :=
  let (entries, _) := Id.run (((files.filterMap P.fileId?).mapM (P.schemaEntry root)).run {})
  (entries.mapM id).map (·.filterMap id)

def Schema.insertAll (s : Schema) (entries : List SchemaEntry) : Schema :=
  entries.foldl (fun s e => SortedMap.insert e.path e s) s

structure Session where
  options : Options
  schema : Schema := []
  hasRun : Bool := false

/-- Changes to a session stay, even if an error follows them. There is no result at all if an
extraction never ends. -/
abbrev SessionM := ExceptT Error (StateT Session Option)

namespace Session

def rootPath (d : Disk) (o : Options) : Except Error Path :=
  (d.absolute? o.sourceDir).elim (.error (.file .resolveSource o.sourceDir)) .ok

def changedFiles (d : Disk) (root : Path) (patterns : List Glob.Pattern) (changed : List Path) :
    Except Error (List Path) := do
  let paths ← changed.mapM fun p => (d.absolute? p).elim (.error (.file .resolveChange p)) .ok
  return (paths.filter fun p => p.isWatched root patterns && d.isFile p).eraseDups

def takeIn (d : Disk) (root : Path) : List Path → SessionM Nat
  | [] => return 0
  | files => do
    let o ← CompilerOptions.load d (← get).options.tsconfig
    let P ← Program.load d.view o files
    let entries ← liftM (P.entries root files)
    modify fun s => { s with schema := s.schema.insertAll entries }
    return entries.length

def build (d : Disk) : SessionM Nat := do
  let s ← get
  if s.hasRun then return 0
  let root ← rootPath d s.options
  let patterns ← compilePatterns s.options.ignorePatterns
  let count ← takeIn d root (← d.componentFiles root patterns)
  modify ({ · with hasRun := true })
  return count

def update (d : Disk) (changed : List Path) : SessionM Nat := do
  let s ← get
  let root ← rootPath d s.options
  let patterns ← compilePatterns s.options.ignorePatterns
  takeIn d root (← changedFiles d root patterns changed)

end Session

end PropSchema
