import PropSchema.Ty.Display

namespace PropSchema

inductive Utility
  | optional
  | required
  | readonly
  | picking
  | omitting
  deriving DecidableEq, Repr

def Utility.ofName? : String → Option Utility
  | "Partial" => some .optional
  | "Required" => some .required
  | "Readonly" => some .readonly
  | "Pick" => some .picking
  | "Omit" => some .omitting
  | _ => none

def Utility.name : Utility → String
  | .optional => "Partial"
  | .required => "Required"
  | .readonly => "Readonly"
  | .picking => "Pick"
  | .omitting => "Omit"

@[simp] theorem Utility.ofName?_name (u : Utility) : Utility.ofName? u.name = some u := by
  cases u <;> rfl

namespace TypeTable

def keyParts (t : TypeTable) (keys : TypeId) : List TypeId :=
  match t.form keys with
  | .union parts => parts
  | _ => [keys]

def keyName? (t : TypeTable) (part : TypeId) : Option String :=
  match t.form part with
  | .stringLiteral value => some value
  | _ => none

def keyNames (t : TypeTable) (keys : TypeId) : List String :=
  (t.keyParts keys).filterMap t.keyName?

end TypeTable

end PropSchema
