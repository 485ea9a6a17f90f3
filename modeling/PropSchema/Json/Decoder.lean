import PropSchema.Json.Value
import PropSchema.Map.Sorted

namespace PropSchema.Json

abbrev Decoder (α : Type) := Nat → Value → Option α

def depthLimit : Nat := 127

namespace Decoder

variable {α : Type}

def string : Decoder String
  | _, .string content => content
  | _, _ => none

def bool : Decoder Bool
  | _, .bool b => some b
  | _, _ => none

def nullable (d : Decoder α) : Decoder (Option α)
  | _, .null => some none
  | depth, v => (d depth v).map some

def list (d : Decoder α) : Decoder (List α)
  | depth + 1, .array elements => elements.mapM (d depth)
  | _, _ => none

def map (d : Decoder α) : Decoder (SortedMap α)
  | depth + 1, .object fields =>
    (fields.mapM fun (f : Content × Value) =>
      f.1.bind fun key => (d depth f.2).map (key, ·)).map SortedMap.ofList
  | _, _ => none

end Decoder

/-- A field of a record: its value, or how it is missing. An array misses its last fields, an
object any. -/
inductive FieldValue
  | present (value : Value)
  | absent
  | cutOff

namespace FieldValue

variable {α : Type}

def required (d : Decoder α) (depth : Nat) : FieldValue → Option α
  | .present v => d depth v
  | _ => none

def withDefault (default : α) (d : Decoder α) (depth : Nat) : FieldValue → Option α
  | .present v => d depth v
  | _ => some default

def optional (d : Decoder α) (depth : Nat) : FieldValue → Option (Option α)
  | .present v => Decoder.nullable d depth v
  | .absent => some none
  | .cutOff => none

end FieldValue

def objectField? (fields : List (String × Value)) (name : String) : Option FieldValue :=
  match fields.filter (·.1 == name) with
  | [] => some .absent
  | [(_, v)] => some (.present v)
  | _ => none

def recordFields? (names : List String) : Value → Option (List FieldValue)
  | .object fields => do
    let fields ← fields.mapM fun (f : Content × Value) => f.1.map (·, f.2)
    names.mapM (objectField? fields)
  | .array elements =>
    if elements.length ≤ names.length then
      some (elements.map .present ++ List.replicate (names.length - elements.length) .cutOff)
    else none
  | _ => none

def record {α : Type} (names : List String) (build : Nat → List FieldValue → Option α) : Decoder α
  | depth + 1, v => recordFields? names v >>= build depth
  | 0, _ => none

def decode? {α : Type} (d : Decoder α) (text : String) : Option α := parse? text >>= d depthLimit

end PropSchema.Json
