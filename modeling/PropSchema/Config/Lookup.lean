import PropSchema.Config.File
import PropSchema.Config.Tsconfig
import PropSchema.Disk.Basic
import PropSchema.Error

namespace PropSchema

namespace Config

def parse (contents : String) : Except Error Config :=
  (parse? contents).elim (.error (.malformedConfig fileName)) .ok

def maxDirectories : Nat := 10

def load? (d : Disk) (p : Path) : Option Config := d.text? p >>= parse?

def loadAbove (d : Disk) (start : Path) : Config :=
  ((start.ancestors maxDirectories).findSome? fun dir => load? d (dir.join fileName)).getD {}

def load (d : Disk) : Config := loadAbove d d.workingDir

end Config

def CompilerOptions.load (d : Disk) (p : Path) : Except Error CompilerOptions :=
  match d.text? p with
  | some text => (parse? text (p.parent?.getD ⟨""⟩)).elim (.error (.malformedTsconfig p)) .ok
  | none => .error (.file .readTsconfig p)

end PropSchema
