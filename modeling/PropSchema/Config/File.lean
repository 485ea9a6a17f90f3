import PropSchema.Config.Options
import PropSchema.Toml.Document

namespace PropSchema

open Toml (Value)

namespace Config

def fileName : String := ".propmap.toml"

def text? : Value → Option String
  | .text s => some s
  | _ => none

def bool? : Value → Option Bool
  | .scalar (.bool b) => some b
  | _ => none

def texts? : Value → Option (List String)
  | .array elements => elements.mapM text?
  | _ => none

def othersReadable (names : List String) (entries : List (String × Value)) : Bool :=
  entries.all fun (key, v) => names.contains key || v.isReadable

def ignore? : Value → Option (List String)
  | .table entries => do
    guard (othersReadable ["patterns"] entries)
    (entries.lookup "patterns").elim (some []) texts?
  | .scalar .dateTime => some []
  | .array [] => some []
  | .array (patterns :: _) => texts? patterns
  | _ => none

def setting? {α : Type} (entries : List (String × Value)) (key : String)
    (read : Value → Option α) : Option (Option α) :=
  match entries.lookup key with
  | some v => (read v).map some
  | none => some none

def parse? (contents : String) : Option Config := do
  let entries ← Toml.parse? contents
  guard (othersReadable ["tsconfig", "constant_name", "verbose", "ignore"] entries)
  return {
    tsconfig := (← setting? entries "tsconfig" text?).map (⟨·⟩)
    constantName := ← setting? entries "constant_name" text?
    verbose := ← setting? entries "verbose" bool?
    ignorePatterns := ← setting? entries "ignore" ignore? }

end Config

end PropSchema
