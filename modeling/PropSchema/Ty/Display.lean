import PropSchema.Ty.Table

namespace PropSchema

def ObjectType.isBareCall (o : ObjectType) : Bool :=
  o.name.isNone && o.members.isEmpty && o.calls.length == 1

def Parameter.display (text : TypeId → String) (p : Parameter) : String :=
  (if p.rest then "..." else "") ++ p.name ++ (if p.optional then "?" else "") ++ ": " ++
    text p.type

def Signature.displayParams (text : TypeId → String) (s : Signature) : String :=
  "(" ++ ", ".intercalate (s.params.map (·.display text)) ++ ")"

def Signature.display (text : TypeId → String) (s : Signature) : String :=
  s.displayParams text ++ " => " ++ text s.returns

def TupleElement.display (text : TypeId → String) (e : TupleElement) : String :=
  (if e.rest then "..." else "") ++ text e.type ++ (if e.optional then "?" else "")

def Member.display (text : TypeId → String) (m : Member) : String :=
  m.name ++ (if m.optional then "?" else "") ++ ": " ++ text m.declared ++ "; "

def ObjectType.display (text : TypeId → String) (o : ObjectType) : String :=
  match o.name, o.members, o.calls with
  | some name, _, _ => name
  | none, [], [] => "\x7b\x7d"
  | none, [], [call] => call.display text
  | none, members, calls =>
    let callText (c : Signature) := c.displayParams text ++ ": " ++ text c.returns ++ "; "
    "\x7b " ++ String.join (calls.map callText) ++ String.join (members.map (·.display text)) ++
      "\x7d"

namespace TypeTable

def needsParens (t : TypeTable) (tight : Bool) (id : TypeId) : Bool :=
  (t.alias? id).isNone &&
    match t.form id with
    | .function _ => true
    | .object o => o.isBareCall
    | .union _ | .intersection _ => tight
    | _ => false

def displayOperand (t : TypeTable) (text : TypeId → String) (tight : Bool) (id : TypeId) : String :=
  if t.needsParens tight id then "(" ++ text id ++ ")" else text id

/-- The parts of a union as they are written: `none` stands for `boolean`, where the first of both
boolean literals stood. -/
def foldBooleans (t : TypeTable) (parts : List TypeId) : List (Option TypeId) :=
  let isBoolean (id : TypeId) := (t.form id).isBooleanLiteral
  let has (value : Bool) := parts.any fun id => t.form id == .booleanLiteral value
  if has true && has false then
    (parts.takeWhile (! isBoolean ·)).map some ++
      none :: ((parts.dropWhile (! isBoolean ·)).filter (! isBoolean ·)).map some
  else parts.map some

def displayForm (t : TypeTable) (text : TypeId → String) : Form → String
  | .primitive p => p.keyword
  | .stringLiteral value => "\"" ++ value ++ "\""
  | .numberLiteral value => value
  | .booleanLiteral value => if value then "true" else "false"
  | .union parts =>
    " | ".intercalate ((t.foldBooleans parts).map fun
      | some id => t.displayOperand text false id
      | none => "boolean")
  | .intersection parts => " & ".intercalate (parts.map (t.displayOperand text true))
  | .array element => t.displayOperand text true element ++ "[]"
  | .tuple elements => "[" ++ ", ".intercalate (elements.map (·.display text)) ++ "]"
  | .object o => o.display text
  | .function signature => signature.display text
  | .enumeration name _ => name
  | .typeParameter name => name
  | .reference name [] => name
  | .reference name args => name ++ "<" ++ ", ".intercalate (args.map text) ++ ">"
  | .pending => "any"

def displayLevels : Nat := 25

def displayAt (t : TypeTable) : Nat → TypeId → String
  | levels, id =>
    match t.alias? id, levels with
    | some a, _ => a.name
    | none, 0 => "..."
    | none, levels + 1 => t.displayForm (t.displayAt levels) (t.form id)

def display (t : TypeTable) (id : TypeId) : String := t.displayAt displayLevels id

end TypeTable

end PropSchema
