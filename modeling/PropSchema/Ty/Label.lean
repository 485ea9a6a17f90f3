import PropSchema.Text.Affix
import PropSchema.Ty.Display

namespace PropSchema.Label

def clean (shown : String) : String :=
  Text.replaceFirst "JSX." "" ((Text.dropPrefix? "React." shown).getD shown)

def primitives : List String := ["string", "number", "boolean", "void", "undefined", "null"]

def standardTypes : List String := ["Date", "RegExp", "Promise", "Array", "Map", "Set"]

def contentTypes : List String := ["ReactNode", "ReactElement", "Element"]

def isStandard (shown : String) : Bool :=
  standardTypes.any fun name => shown == name || Text.startsWith (name ++ "<") shown

def isContent (label : String) : Bool :=
  let head := String.ofList (label.toList.takeWhile (· != '<'))
  contentTypes.any (Text.endsWith · head)

def isAtomic (shown : String) : Bool :=
  primitives.contains shown || isStandard shown || isContent (clean shown)

end PropSchema.Label
