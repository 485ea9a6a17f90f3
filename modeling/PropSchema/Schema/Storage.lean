import PropSchema.Disk.Basic
import PropSchema.Error
import PropSchema.Schema.Document

namespace PropSchema

abbrev DiskM := ExceptT Error (StateM Disk)

def DiskM.orError {α : Type} (operation : OptionT (StateM Disk) α) (e : Error) : DiskM α :=
  ExceptT.mk do return (← operation.run).elim (.error e) .ok

namespace Schema

def writeText (path : Path) (text : String) : DiskM Unit := do
  if let some parent := path.parent? then
    if ! parent.text.isEmpty then
      DiskM.orError (Disk.makeDirectories parent) (.file .createDirectory parent)
  DiskM.orError (Disk.write path { text }) (.file .createOutput path)

def save (s : Schema) (constant : String) (format : OutputFormat) (path : Path) : DiskM Unit :=
  writeText path (s.render constant format)

def load (d : Disk) (path : Path) : Except Error Schema :=
  match d.node? path, d.text? path with
  | none, _ => .ok []
  | some _, some text => (decode? text).elim (.error .malformedSchema) .ok
  | some _, none => .error (.file .readSchema path)

end Schema

end PropSchema
