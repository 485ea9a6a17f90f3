import PropSchema.Path.Raw

namespace PropSchema

def keyOfText (text : String) : String :=
  let bare := ((Text.dropSuffix? ".tsx" text).or (Text.dropSuffix? ".ts" text)).getD text
  (Text.dropSuffix? "/index" bare).getD bare

namespace RawPath

def shown (names : List (List UInt8)) : String := "/".intercalate (names.map Text.lossy)

def schemaKey? (root file : RawPath) : Option String :=
  (file.below? root).map fun names => keyOfText (shown names)

end RawPath

def schemaKey? (root file : Path) : Option String := root.raw.schemaKey? file.raw

end PropSchema
