import PropSchema.Component.Source
import PropSchema.Disk.Basic
import PropSchema.Error

namespace PropSchema

namespace FileTree

mutual

/-- The paths of the files in a tree at this path, without those in directories of packages below
it. A file whose path is too long is left out; a directory whose path is too long cannot be
walked. -/
def walk (path : Path) : FileTree → Option (List Path)
  | .file _ => some (if path.isValid then [path] else [])
  | .directory entries => if path.isValid then walkAll path entries else none

def walkAll (path : Path) : List (FileName × FileTree) → Option (List Path)
  | [] => some []
  | (name, t) :: rest => do
    let files ← if name.text = packageDirectory then some [] else t.walk (path.join name.text)
    return files ++ (← walkAll path rest)

end

end FileTree

def Path.isStandardInput (p : Path) : Bool := p.components == [.normal "-"]

def Disk.componentFiles (d : Disk) (root : Path) (patterns : List Glob.Pattern) :
    Except Error (List Path) :=
  if root.isStandardInput then .ok []
  else match (d.node? root).bind (·.walk root) with
    | some files => .ok (files.filter fun p => p.isComponentFile && ! p.isExcluded patterns)
    | none => .error (.unreadableDirectory root)

end PropSchema
