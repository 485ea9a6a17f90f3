import PropSchema.Path.Basic
import PropSchema.Text.Lossy

/-!
Paths as a file system has them: bytes that need not be text.
-/

namespace PropSchema

structure RawPath where
  bytes : List UInt8
  deriving DecidableEq, Repr

namespace RawPath

def slash : UInt8 := 0x2F

def dot : UInt8 := 0x2E

def lead (bytes : List UInt8) : List (List UInt8) :=
  if bytes.head? == some slash then [[slash]]
  else if (bytes.splitOn slash).head? == some [dot] then [[dot]]
  else []

def components (p : RawPath) : List (List UInt8) :=
  lead p.bytes ++ (p.bytes.splitOn slash).filter fun part => part != [] && part != [dot]

def below? (p directory : RawPath) : Option (List (List UInt8)) :=
  directory.components.isPrefixOf? p.components

def fileName? (p : RawPath) : Option (List UInt8) :=
  p.components.getLast?.filter fun last => ! [[slash], [dot], [dot, dot]].contains last

end RawPath

def Path.raw (p : Path) : RawPath := ⟨Text.bytes p.text⟩

end PropSchema
