namespace PropSchema

/-- A prop with the options of an enumeration or the children of an object or a union, or neither.
No options and an empty list of options are different things. -/
structure PropDefinition where
  name : String
  type : String
  required : Bool
  options : Option (List String)
  children : Option (List PropDefinition)
  deriving Repr

namespace PropDefinition

def plain (name type : String) (required : Bool) : PropDefinition :=
  ⟨name, type, required, none, none⟩

def choice (name type : String) (required : Bool) (options : List String) : PropDefinition :=
  ⟨name, type, required, some options, none⟩

def group (name type : String) (required : Bool) (children : List PropDefinition) :
    PropDefinition :=
  ⟨name, type, required, none, some children⟩

end PropDefinition

structure SchemaEntry where
  path : String
  props : List PropDefinition
  deriving Repr

end PropSchema
