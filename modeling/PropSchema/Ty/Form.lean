namespace PropSchema

abbrev TypeId := Nat

abbrev FileId := Nat

inductive Primitive
  | string
  | number
  | bigint
  | symbol
  | object
  | void
  | undefined
  | null
  | any
  | unknown
  | never
  deriving DecidableEq, Repr

def Primitive.keyword : Primitive → String
  | .string => "string"
  | .number => "number"
  | .bigint => "bigint"
  | .symbol => "symbol"
  | .object => "object"
  | .void => "void"
  | .undefined => "undefined"
  | .null => "null"
  | .any => "any"
  | .unknown => "unknown"
  | .never => "never"

def Primitive.ofKeyword? : String → Option Primitive
  | "string" => some .string
  | "number" => some .number
  | "bigint" => some .bigint
  | "symbol" => some .symbol
  | "unique symbol" => some .symbol
  | "object" => some .object
  | "void" => some .void
  | "undefined" => some .undefined
  | "null" => some .null
  | "any" => some .any
  | "unknown" => some .unknown
  | "never" => some .never
  | _ => none

@[simp] theorem Primitive.ofKeyword?_keyword (p : Primitive) :
    Primitive.ofKeyword? p.keyword = some p := by
  cases p <;> rfl

structure Site where
  file : FileId
  line : Nat
  deriving DecidableEq, Repr

/-- A property of an object type. The type at its site includes `undefined` if it is optional. -/
structure Member where
  name : String
  declared : TypeId
  site : TypeId
  optional : Bool
  declaration : Option Site
  deriving DecidableEq, Repr

structure Parameter where
  name : String
  type : TypeId
  optional : Bool
  rest : Bool
  deriving DecidableEq, Repr

structure Signature where
  params : List Parameter
  returns : TypeId
  deriving DecidableEq, Repr

structure ObjectType where
  name : Option String
  members : List Member
  calls : List Signature
  deriving DecidableEq, Repr

structure TupleElement where
  type : TypeId
  optional : Bool
  rest : Bool
  deriving DecidableEq, Repr

/-- A number literal is kept in its canonical decimal form. A reference is a named type of unknown
structure. A pending form belongs to a declaration that is still being bound. -/
inductive Form
  | primitive (keyword : Primitive)
  | stringLiteral (value : String)
  | numberLiteral (value : String)
  | booleanLiteral (value : Bool)
  | union (parts : List TypeId)
  | intersection (parts : List TypeId)
  | array (element : TypeId)
  | tuple (elements : List TupleElement)
  | object (type : ObjectType)
  | function (signature : Signature)
  | enumeration (name : String) (members : List String)
  | typeParameter (name : String)
  | reference (name : String) (args : List TypeId)
  | pending
  deriving DecidableEq, Repr

namespace Form

def isPlain : Form → Bool
  | .pending | .union _ => false
  | _ => true

def isNullish : Form → Bool
  | .primitive .undefined | .primitive .null => true
  | _ => false

def isLiteral : Form → Bool
  | .stringLiteral _ | .numberLiteral _ | .booleanLiteral _ => true
  | _ => false

def isBooleanLiteral : Form → Bool
  | .booleanLiteral _ => true
  | _ => false

def literal? : Form → Option String
  | .stringLiteral value => some value
  | .numberLiteral value => some value
  | .booleanLiteral value => some (if value then "true" else "false")
  | _ => none

def calls : Form → List Signature
  | .function signature => [signature]
  | .object type => type.calls
  | _ => []

def rank? : Form → Option Nat
  | .primitive .any => some 0
  | .primitive .unknown => some 1
  | .primitive .undefined => some 2
  | .primitive .null => some 3
  | .primitive .string => some 4
  | .primitive .number => some 5
  | .primitive .bigint => some 6
  | .booleanLiteral false => some 7
  | .booleanLiteral true => some 8
  | .primitive .symbol => some 9
  | .primitive .void => some 10
  | .primitive .never => some 11
  | .primitive .object => some 12
  | _ => none

end Form

end PropSchema
