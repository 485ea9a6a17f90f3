import PropSchema.Path.Basic

namespace PropSchema

inductive Grammar
  | typeScript
  | tsx
  deriving DecidableEq, Repr

def Grammar.ofExtension? : String → Option Grammar
  | "ts" | "mts" | "cts" => some .typeScript
  | "tsx" => some .tsx
  | _ => none

def Grammar.ofPath (p : Path) : Grammar := (p.extension?.bind Grammar.ofExtension?).getD .typeScript

end PropSchema
