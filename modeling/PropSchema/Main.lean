import PropSchema.CommandLine.Run
import PropSchema.Tree.Document

/-!
The program: the directories that a command line is about are read into a disk, the command runs
there, and the file it wrote is written out.

Sources come with their syntax trees: that of `Card.tsx` is the document `Card.tsx.tree.json`.
-/

namespace PropSchema.CommandLine

def Command.paths : Command → List Path
  | .extract r => r.sourceDir :: r.flags.tsconfig.toList ++ r.output.toList
  | .update r => r.sourceDir :: r.output :: r.flags.tsconfig.toList ++ r.files

def Command.output? : Command → Option Path
  | .extract r => r.output
  | .update r => some r.output

def readFile (path : String) : IO File := do
  let text := String.fromUTF8? (← IO.FS.readBinFile path)
  let document ← (some <$> IO.FS.readFile (path ++ ".tree.json")) <|> pure none
  let tree := do Node.ofDocument? (← text) (← document)
  return { text, tree := tree.getD .empty }

/-- Reads a directory. Links are left out, so that there are no cycles. -/
partial def readDirectory (path : String) : IO FileTree := do
  let mut tree := FileTree.empty
  for entry in ← (← IO.FS.realPath path).readDir do
    if (← IO.FS.realPath entry.path) == entry.path then
      let node ← if ← entry.path.isDir then readDirectory entry.path.toString
        else .file <$> readFile entry.path.toString
      if let some name := FileName.ofText? entry.fileName then tree := tree.put [name] node
  return tree

def includeDirectory (d : Disk) (path : Path) : IO Disk := do
  let tree ← (some <$> readDirectory path.text) <|> pure none
  return tree.elim d (d.put path.names)

def includeFile (d : Disk) (path : Path) : IO Disk := do
  let file ← (some <$> readFile path.text) <|> pure none
  return file.elim d fun f => d.put path.names (.file f)

def outermost (directories : List Path) : List Path :=
  directories.eraseDups.filter fun p => ! directories.any fun q => q != p && p.isBelow q

def readDisk (command : Command) : IO Disk := do
  let working : Path := ⟨(← IO.currentDir).toString⟩
  let empty : Disk := { workingNames := working.names }
  let named := command.paths.filterMap empty.absolute?
  let configs := (working.ancestors Config.maxDirectories).map (·.join Config.fileName)
  let d ← configs.foldlM includeFile empty
  (outermost (working :: named.filterMap Path.parent?)).foldlM includeDirectory d

def writeOut (command : Command) (d : Disk) : IO Unit := do
  if let some path := command.output? then
    if let some text := d.text? path then
      if let some parent := path.parent? then
        if ! parent.text.isEmpty then IO.FS.createDirAll parent.text
      IO.FS.writeFile path.text text

def report (o : Outcome) : IO UInt32 := do
  IO.print o.output
  o.error.forM IO.eprintln
  return o.code.toUInt32

def overflowCode : UInt32 := 134

def execute (words : List String) : IO UInt32 := do
  let tsconfig ← IO.getEnv "PROPMAP_TSCONFIG"
  match parse tsconfig words with
  | .error stop => report stop.outcome
  | .ok command =>
    match command.run.run (← readDisk command) with
    | none => return overflowCode
    | some (result, d) =>
      if result.isOk then writeOut command d
      report (Outcome.ofResult result)

end PropSchema.CommandLine

def main (words : List String) : IO UInt32 := PropSchema.CommandLine.execute words
