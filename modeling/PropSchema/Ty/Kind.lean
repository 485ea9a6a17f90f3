import PropSchema.Ty.Table

namespace PropSchema

inductive TypeKind
  | array
  | tuple
  | union
  | intersection
  | function
  | enumeration
  | enumLiteral
  | object
  | primitive
  deriving DecidableEq, Repr

def TypeKind.label : TypeKind → String
  | .array => "array"
  | .tuple => "tuple"
  | .union => "union"
  | .intersection => "intersection"
  | .function => "function"
  | .enumeration => "enum"
  | .enumLiteral => "enum-literal"
  | .object => "object"
  | .primitive => "primitive"

def Form.kind : Form → TypeKind
  | .array _ => .array
  | .tuple _ => .tuple
  | .union _ => .union
  | .intersection _ => .intersection
  | .function _ => .function
  | .object o =>
    if ! o.calls.isEmpty then .function else if ! o.members.isEmpty then .object else .primitive
  | .enumeration _ _ => .enumeration
  | .stringLiteral _ | .numberLiteral _ | .booleanLiteral _ => .enumLiteral
  | .primitive _ | .typeParameter _ | .reference _ _ | .pending => .primitive

def TypeTable.kind (t : TypeTable) (id : TypeId) : TypeKind := (t.form (t.declared id)).kind

end PropSchema
