import PropSchema.Path.Basic

namespace PropSchema.Specifier

def extensions : List String := [".tsx", ".ts", ".d.ts"]

def indexNames : List String := ["index.tsx", "index.ts", "index.d.ts"]

def isRelative (specifier : String) : Bool :=
  Text.startsWith "./" specifier || Text.startsWith "../" specifier || specifier == "."

def base? (importer : Path) (specifier : String) : Option Path :=
  if isRelative specifier then
    some ((importer.parent?.getD ⟨""⟩).join specifier).normalize
  else none

/-- The files a path may stand for, in the order in which they are tried: the path itself if it
names a source, the source beside a compiled file, the index of a directory. -/
def files (base : Path) : List Path :=
  let text := base.text
  let stem := ((Text.dropSuffix? ".js" text).or (Text.dropSuffix? ".jsx" text)).getD text
  (if extensions.any (Text.endsWith · text) then [base] else []) ++
    extensions.map (⟨stem ++ ·⟩) ++ indexNames.map base.join

end PropSchema.Specifier
