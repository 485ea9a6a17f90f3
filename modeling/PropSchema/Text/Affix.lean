namespace PropSchema.Text

def dropPrefix? (lead text : String) : Option String :=
  (lead.toList.isPrefixOf? text.toList).map String.ofList

def dropSuffix? (tail text : String) : Option String :=
  (tail.toList.isSuffixOf? text.toList).map String.ofList

def startsWith (lead text : String) : Bool := (dropPrefix? lead text).isSome

def endsWith (tail text : String) : Bool := (dropSuffix? tail text).isSome

def cutList? (mark : List Char) : List Char → Option (List Char × List Char)
  | [] => if mark.isEmpty then some ([], []) else none
  | c :: rest =>
    match mark.isPrefixOf? (c :: rest) with
    | some after => some ([], after)
    | none => (cutList? mark rest).map fun (before, after) => (c :: before, after)

def cut? (mark text : String) : Option (String × String) :=
  (cutList? mark.toList text.toList).map fun (before, after) =>
    (String.ofList before, String.ofList after)

def replaceFirst (mark replacement text : String) : String :=
  match cut? mark text with
  | some (before, after) => before ++ replacement ++ after
  | none => text

end PropSchema.Text
