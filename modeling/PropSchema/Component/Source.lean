import PropSchema.Glob.Pattern
import PropSchema.Path.Raw

namespace PropSchema

def packageDirectory : String := "node_modules"

def isComponentName (name : String) : Bool :=
  Text.endsWith ".tsx" name &&
    ! [".stories.tsx", ".test.tsx", ".spec.tsx"].any (Text.endsWith · name)

def RawPath.isComponentFile (p : RawPath) : Bool :=
  p.fileName?.any fun name => isComponentName (Text.lossy name)

namespace Path

def isComponentFile (p : Path) : Bool := p.raw.isComponentFile

def isExcluded (p : Path) (patterns : List Glob.Pattern) : Bool :=
  patterns.any (·.matches p.text)

def isWatched (p root : Path) (patterns : List Glob.Pattern) : Bool :=
  p.isBelow root && p.isComponentFile && ! p.components.contains (.normal packageDirectory) &&
    ! p.isExcluded patterns

end Path

end PropSchema
