import PropSchema.Toml.Value

namespace PropSchema.Toml

inductive Statement
  | header (path : List String)
  | arrayHeader (path : List String)
  | keyValue (path : List String) (v : Value)
  deriving Repr

def statement? (chars : List Char) : Option (Option Statement × List Char) := do
  match skipSpaces chars with
  | '[' :: '[' :: rest =>
    let (path, rest) ← key? rest
    match rest with
    | ']' :: ']' :: rest => return (some (.arrayHeader path), ← restOfLine? rest)
    | _ => none
  | '[' :: rest =>
    let (path, rest) ← key? rest
    match rest with
    | ']' :: rest => return (some (.header path), ← restOfLine? rest)
    | _ => none
  | rest =>
    match restOfLine? rest with
    | some after => return (none, after)
    | none =>
      let ((path, v), rest) ← value?.keyValue (some ∘ skipSpaces) rest
      return (some (.keyValue path v), ← restOfLine? rest)

def statementsAt : Nat → List Char → Option (List Statement)
  | _, [] => some []
  | 0, _ => none
  | limit + 1, chars => do
    let (statement, rest) ← statement? chars
    return statement.toList ++ (← statementsAt limit rest)

def dropMark : List Char → List Char
  | '\ufeff' :: rest => rest
  | chars => chars

def statements? (text : String) : Option (List Statement) :=
  let chars := dropMark text.toList
  statementsAt chars.length chars

structure Draft where
  entries : Entries := []
  header : List String := []

def Draft.add (d : Draft) : Statement → Option Draft
  | .header path => do
    let entries ← d.entries.within (Entries.openTable (← path.getLast?)) path.dropLast
    return ⟨entries, path⟩
  | .arrayHeader path => do
    let entries ← d.entries.within (Entries.openElement (← path.getLast?)) path.dropLast
    return ⟨entries, path⟩
  | .keyValue path v => do
    let entries ← d.entries.within (Entries.insertPath path v) d.header
    return { d with entries }

def parse? (text : String) : Option (List (String × Value)) := do
  let draft ← (← statements? text).foldlM Draft.add {}
  return entriesValue draft.entries

end PropSchema.Toml
