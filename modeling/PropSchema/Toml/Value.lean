import PropSchema.Toml.Scalar

/-!
TOML values and the tables that hold them. A table remembers how it was made, since that decides
what may still be added to it.
-/

namespace PropSchema.Toml

inductive Value
  | text (content : String)
  | scalar (s : Scalar)
  | array (elements : List Value)
  | table (entries : List (String × Value))
  deriving Repr

mutual

def Value.isReadable : Value → Bool
  | .scalar (.number hasValue) => hasValue
  | .array elements => elementsReadable elements
  | .table entries => entriesReadable entries
  | _ => true

def elementsReadable : List Value → Bool
  | [] => true
  | v :: rest => v.isReadable && elementsReadable rest

def entriesReadable : List (String × Value) → Bool
  | [] => true
  | (_, v) :: rest => v.isReadable && entriesReadable rest

end

/-- A table that a header or a key only passed through is implicit; one that a dotted key made is
dotted as well. -/
structure Origin where
  implicit : Bool
  dotted : Bool
  deriving DecidableEq, Repr

inductive Item
  | value (v : Value)
  | table (origin : Origin) (entries : List (String × Item))
  | tables (elements : List (List (String × Item)))
  deriving Repr

abbrev Entries := List (String × Item)

mutual

def Item.toValue : Item → Value
  | .value v => v
  | .table _ entries => .table (entriesValue entries)
  | .tables elements => .array (elementsValue elements)

def entriesValue : List (String × Item) → List (String × Value)
  | [] => []
  | (key, item) :: rest => (key, item.toValue) :: entriesValue rest

def elementsValue : List (List (String × Item)) → List Value
  | [] => []
  | entries :: rest => .table (entriesValue entries) :: elementsValue rest

end

namespace Entries

def update (key : String) (change : Option Item → Option Item) : Entries → Option Entries
  | [] => (change none).map fun item => [(key, item)]
  | (k, item) :: rest =>
    if k = key then (change (some item)).map fun item => (k, item) :: rest
    else (update key change rest).map ((k, item) :: ·)

def updateLast (change : Entries → Option Entries) : List Entries → Option (List Entries)
  | [] => none
  | [last] => (change last).map ([·])
  | first :: rest => (updateLast change rest).map (first :: ·)

def within (change : Entries → Option Entries) : List String → Entries → Option Entries
  | [], entries => change entries
  | key :: path, entries => update key (fun
      | none => (within change path []).map (.table ⟨true, false⟩)
      | some (.table origin sub) => (within change path sub).map (.table origin)
      | some (.tables elements) => (updateLast (within change path) elements).map .tables
      | some (.value _) => none) entries

def openTable (key : String) : Entries → Option Entries :=
  update key fun
    | none => some (.table ⟨false, false⟩ [])
    | some (.table ⟨true, false⟩ sub) => some (.table ⟨false, false⟩ sub)
    | _ => none

def openElement (key : String) : Entries → Option Entries :=
  update key fun
    | none => some (.tables [[]])
    | some (.tables elements) => some (.tables (elements ++ [[]]))
    | _ => none

/-- A value under a dotted key. A dotted key adds to no table that a header opened, and its last
table is one that dotted keys made. -/
def insert (last : String) (v : Value) : List String → Entries → Option Entries
  | [], entries => update last (fun
      | none => some (.value v)
      | some _ => none) entries
  | key :: path, entries => update key (fun
      | none => (insert last v path []).map (.table ⟨true, true⟩)
      | some (.table origin sub) =>
        if origin.implicit && (origin.dotted || ! path.isEmpty) then
          (insert last v path sub).map (.table origin)
        else none
      | some (.tables elements) =>
        if path.isEmpty then none
        else (updateLast (insert last v path) elements).map .tables
      | some (.value _) => none) entries

def insertPath (path : List String) (v : Value) (entries : Entries) : Option Entries :=
  match path.getLast? with
  | some last => insert last v path.dropLast entries
  | none => none

end Entries

abbrev Reader := List Char → Option (Value × List Char)

namespace Reader

variable (value : Reader)

def elements : Nat → List Char → Option (List Value × List Char)
  | 0, _ => none
  | limit + 1, chars => do
    match ← skipTrivia? chars with
    | ']' :: rest => return ([], rest)
    | chars =>
      let (first, rest) ← value chars
      match ← skipTrivia? rest with
      | ',' :: rest =>
        let (others, after) ← elements limit rest
        return (first :: others, after)
      | ']' :: rest => return ([first], rest)
      | _ => none

def keyValue (skip : List Char → Option (List Char)) (chars : List Char) :
    Option ((List String × Value) × List Char) := do
  let (path, rest) ← key? chars
  match ← skip rest with
  | '=' :: rest =>
    let (v, after) ← value (← skip rest)
    return ((path, v), after)
  | _ => none

def inlineEntries : Nat → Entries → List Char → Option (Entries × List Char)
  | 0, _, _ => none
  | limit + 1, entries, chars => do
    match ← skipTrivia? chars with
    | '\x7d' :: rest => return (entries, rest)
    | chars =>
      let ((path, v), rest) ← value.keyValue skipTrivia? chars
      let entries ← entries.insertPath path v
      match ← skipTrivia? rest with
      | ',' :: rest => inlineEntries limit entries rest
      | '\x7d' :: rest => return (entries, rest)
      | _ => none

end Reader

def nestingLimit : Nat := 80

def valueAt : Nat → Reader
  | depth, chars =>
    match chars, depth with
    | '"' :: _, _ | '\x27' :: _, _ =>
      (text? chars).map fun (content, after) => (.text (String.ofList content), after)
    | '[' :: rest, depth + 1 => do
      let (elements, after) ← Reader.elements (valueAt depth) (rest.length + 1) rest
      return (.array elements, after)
    | '\x7b' :: rest, depth + 1 => do
      let (entries, after) ← Reader.inlineEntries (valueAt depth) (rest.length + 1) [] rest
      return (.table (entriesValue entries), after)
    | _, _ =>
      let (w, rest) := word chars
      (scalar? w).map fun s => (.scalar s, rest)

def value? : Reader := valueAt nestingLimit

end PropSchema.Toml
