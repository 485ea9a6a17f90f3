import PropSchema.Json.Value
import PropSchema.Tree.Preorder

namespace PropSchema

namespace Preorder

def nat? : Json.Value → Option Nat
  | .number text => text.toNat?
  | _ => none

def Item.ofJson? : Json.Value → Option Item
  | .array [.string (some kind), flags, .string (some field), start, stop, arity] => do
    return {
      kind
      named := (← nat? flags) % 2 == 1
      field
      span := ⟨← nat? start, ← nat? stop⟩
      arity := ← nat? arity }
  | _ => none

def parse? (document : String) : Option (List Item) :=
  match Json.parse? document with
  | some (.array items) => items.mapM Item.ofJson?
  | _ => none

end Preorder

def Node.ofDocument? (source document : String) : Option Node :=
  Preorder.parse? document >>= Node.ofPreorder? source

end PropSchema
