import PropSchema.Module.Specifier
import PropSchema.Tree.Node
import PropSchema.Ty.Form

namespace PropSchema

structure SourceModule where
  path : Path
  tree : Node
  deriving Repr

namespace SourceModule

def statements (m : SourceModule) : List Node := m.tree.parts

def specifiers (m : SourceModule) : List String :=
  (m.statements.filter fun s => s.kind == .importStatement || s.kind == .exportStatement).filterMap
    fun s => (s.child? .source).map (·.unquotedText)

end SourceModule

/-- Modules are numbered in the order in which they were added. A path leads to the module that was
added last under it; a specifier used in a module leads to another module, unless it is external. -/
structure Program where
  modules : Array SourceModule := #[]
  index : List (Path × FileId) := []
  links : List ((FileId × String) × FileId) := []
  deriving Repr

structure Declaration where
  file : FileId
  node : Node
  deriving Repr

namespace Program

def moduleAt (P : Program) (file : FileId) : SourceModule :=
  P.modules.getD file ⟨⟨""⟩, Node.empty⟩

def size (P : Program) : Nat := P.modules.size

def at? (P : Program) (path : Path) : Option FileId := P.index.lookup path

def fileId? (P : Program) (path : Path) : Option FileId := P.at? path.normalize

def statements (P : Program) (file : FileId) : List Node := (P.moduleAt file).statements

def link? (P : Program) (file : FileId) (specifier : String) : Option FileId :=
  P.links.lookup (file, specifier)

def addModule (P : Program) (m : SourceModule) : Program :=
  { P with modules := P.modules.push m, index := (m.path, P.size) :: P.index }

def addLink (P : Program) (file : FileId) (specifier : String) (target : FileId) : Program :=
  { P with links := ((file, specifier), target) :: P.links }

def target? (P : Program) (importer : Path) (specifier : String) : Option FileId := do
  (Specifier.files (← Specifier.base? importer specifier)).findSome? P.at?

def linkAll (P : Program) (file : FileId) : Program :=
  let m := P.moduleAt file
  m.specifiers.foldl (fun Q specifier =>
    match P.target? m.path specifier with
    | some target => Q.addLink file specifier target
    | none => Q) P

def ofSources (sources : List SourceModule) : Program :=
  let P := sources.foldl (fun P m => P.addModule { m with path := m.path.normalize }) {}
  (List.range P.size).foldl linkAll P

end Program

end PropSchema
