import PropSchema.Json.Decoder
import PropSchema.Json.Printer
import PropSchema.Schema.Definition

namespace PropSchema

abbrev Schema := SortedMap SchemaEntry

open Json

namespace PropDefinition

def fieldNames : List String := ["name", "type", "required", "options", "children"]

def decodeWith (children : Value → Option (List PropDefinition)) : Decoder PropDefinition :=
  record fieldNames fun depth fields =>
    match fields with
    | [name, type, required, options, nested] => do
      return {
        name := ← name.required .string depth
        type := ← type.required .string depth
        required := ← required.required .bool depth
        options := ← options.withDefault none (.nullable (.list .string)) depth
        children := ← nested.withDefault none (.nullable fun _ => children) depth }
    | _ => none

/-- A list of children is two levels deep: the list and the definitions in it. -/
def decode : Decoder PropDefinition
  | 0, _ => none
  | 1, v => decodeWith (fun _ => none) 1 v
  | depth + 2, v =>
    decodeWith (fun | .array elements => elements.mapM (decode depth) | _ => none) (depth + 2) v

mutual

def toJson : PropDefinition → Value
  | ⟨name, type, required, options, children⟩ =>
    .object <|
      [(some "name", .string (some name)), (some "type", .string (some type)),
        (some "required", .bool required)] ++
      (options.toList.map fun os => (some "options", .array (os.map fun o => .string (some o)))) ++
      (match children with
        | some children => [(some "children", .array (toJsonAll children))]
        | none => [])

def toJsonAll : List PropDefinition → List Value
  | [] => []
  | p :: rest => p.toJson :: toJsonAll rest

end

end PropDefinition

namespace SchemaEntry

def decode : Decoder SchemaEntry :=
  record ["path", "props"] fun depth fields =>
    match fields with
    | [path, props] => do
      return ⟨← path.required .string depth, ← props.required (.list PropDefinition.decode) depth⟩
    | _ => none

def toJson (e : SchemaEntry) : Value :=
  .object [(some "path", .string (some e.path)),
    (some "props", .array (PropDefinition.toJsonAll e.props))]

end SchemaEntry

inductive OutputFormat
  | json
  | define
  deriving DecidableEq, Repr

def OutputFormat.ofName? : String → Option OutputFormat
  | "json" => some .json
  | "define" => some .define
  | _ => none

namespace Schema

def decode? (text : String) : Option Schema := Json.decode? (.map SchemaEntry.decode) text

def toJson (s : Schema) : Value := .object (s.map fun (key, entry) => (some key, entry.toJson))

def render (s : Schema) (constant : String) : OutputFormat → String
  | .json => s.toJson.print .indented 0 ++ "\n"
  | .define => "const " ++ constant ++ " = " ++ s.toJson.print .compact 0 ++ ";\n"

end Schema

end PropSchema
