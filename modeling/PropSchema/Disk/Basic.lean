import PropSchema.Disk.FileTree
import PropSchema.Path.Basic

namespace PropSchema

structure Disk where
  root : FileTree := .empty
  workingNames : List FileName := []

namespace Path

def maxLength : Nat := 4095

def isValid (p : Path) : Bool :=
  ! p.text.isEmpty && p.text.utf8ByteSize ≤ maxLength && ! p.text.toList.contains '\x00'

def maxNameLength : Nat := 255

end Path

namespace Disk

def workingDir (d : Disk) : Path := .ofNames d.workingNames

def start (d : Disk) (p : Path) : List FileName := if p.isAbsolute then [] else d.workingNames

def step (root : FileTree) (place : List FileName) (segment : List Char) :
    Option (List FileName) := do
  let t ← root.get? place
  guard t.isDirectory
  match Path.component? segment with
  | some (.normal name) => do
    let name ← FileName.ofText? name
    (t.child? name).map fun _ => place ++ [name]
  | some .parent => some place.dropLast
  | _ => some place

def follow? (d : Disk) (place : List FileName) (segments : List (List Char)) :
    Option (List FileName) :=
  segments.foldlM (step d.root) place

def place? (d : Disk) (p : Path) : Option (List FileName) :=
  if p.isValid then d.follow? (d.start p) (Path.segments p.text.toList) else none

def node? (d : Disk) (p : Path) : Option FileTree := do d.root.get? (← d.place? p)

def file? (d : Disk) (p : Path) : Option File := do (← d.node? p).file?

def text? (d : Disk) (p : Path) : Option String := do (← d.file? p).text

def isFile (d : Disk) (p : Path) : Bool := (d.file? p).isSome

def absolute? (d : Disk) (p : Path) : Option Path :=
  if p.text.isEmpty then none else some (d.workingDir.join p.text).normalize

def put (d : Disk) (names : List FileName) (node : FileTree) : Disk :=
  { d with root := d.root.put names node }

def makeStep (place : List FileName) (segment : List Char) :
    OptionT (StateM Disk) (List FileName) := do
  match Path.component? segment with
  | some (.normal name) =>
    let some name := FileName.ofText? name | failure
    let place := place ++ [name]
    match (← get).root.get? place with
    | some t => guard t.isDirectory
    | none =>
      guard (name.text.utf8ByteSize ≤ Path.maxNameLength)
      modify (·.put place .empty)
    return place
  | some .parent => return place.dropLast
  | _ => return place

/-- Makes the directories along a path. Those before one that cannot be made stay. -/
def makeDirectories (p : Path) : OptionT (StateM Disk) Unit := do
  guard p.isValid
  discard ((Path.segments p.text.toList).foldlM makeStep ((← get).start p))

def write (p : Path) (f : File) : OptionT (StateM Disk) Unit := do
  guard p.isValid
  let d ← get
  let segments := Path.segments p.text.toList
  let some place := d.follow? (d.start p) segments.dropLast | failure
  let some (.normal name) := segments.getLast?.bind Path.component? | failure
  let some name := FileName.ofText? name | failure
  guard (name.text.utf8ByteSize ≤ Path.maxNameLength)
  let some (.directory entries) := d.root.get? place | failure
  guard ! (entries.lookup name).any (·.isDirectory)
  set (d.put (place ++ [name]) (.file f))

end Disk

structure FileView where
  file? : Path → Option File
  bound : Nat

def FileView.isFile (v : FileView) (p : Path) : Bool := (v.file? p).isSome

def Disk.view (d : Disk) : FileView := ⟨d.file?, d.root.size * (2 * (Path.maxLength + 1))⟩

end PropSchema
