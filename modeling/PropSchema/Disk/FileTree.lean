import PropSchema.Map.Sorted
import PropSchema.Path.Basic
import PropSchema.Tree.Node

namespace PropSchema

/-- A file holds a text, unless its bytes are none, and the syntax tree of the text, which is empty
if the file is not a source. -/
structure File where
  text : Option String
  tree : Node := .empty
  deriving Repr

inductive FileTree
  | file (f : File)
  | directory (entries : List (FileName × FileTree))

namespace FileTree

def empty : FileTree := .directory []

def entries : FileTree → List (FileName × FileTree)
  | .file _ => []
  | .directory entries => entries

def isDirectory : FileTree → Bool
  | .file _ => false
  | .directory _ => true

def file? : FileTree → Option File
  | .file f => some f
  | .directory _ => none

def child? (t : FileTree) (name : FileName) : Option FileTree := t.entries.lookup name

def get? (t : FileTree) : List FileName → Option FileTree
  | [] => some t
  | name :: names => do (← t.child? name).get? names

def put : FileTree → List FileName → FileTree → FileTree
  | _, [], node => node
  | t, name :: names, node =>
    .directory (SortedMap.insert name (((t.child? name).getD empty).put names node) t.entries)

def erase : FileTree → List FileName → FileTree
  | .file f, _ => .file f
  | .directory _, [] => empty
  | .directory entries, [name] => .directory (entries.filter (·.1 != name))
  | .directory entries, name :: names =>
    match entries.lookup name with
    | some child => .directory (SortedMap.insert name (child.erase names) entries)
    | none => .directory entries

mutual

def size : FileTree → Nat
  | .file _ => 1
  | .directory entries => sizeAll entries

def sizeAll : List (FileName × FileTree) → Nat
  | [] => 0
  | (_, t) :: rest => t.size + sizeAll rest

end

end FileTree

end PropSchema
