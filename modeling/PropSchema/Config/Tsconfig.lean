import PropSchema.Config.Commented
import PropSchema.Json.Decoder
import PropSchema.Path.Basic

namespace PropSchema

structure PathMapping where
  pattern : String
  targets : List String
  deriving DecidableEq, Repr

namespace PathMapping

def capture? (pattern specifier : String) : Option String :=
  match Text.cut? "*" pattern with
  | some (before, after) => Text.dropPrefix? before specifier >>= Text.dropSuffix? after
  | none => if pattern = specifier then some "" else none

def substitute (target captured : String) : String := Text.replaceFirst "*" captured target

def apply (m : PathMapping) (specifier : String) : List String :=
  match capture? m.pattern specifier with
  | some captured => m.targets.map (substitute · captured)
  | none => []

end PathMapping

structure CompilerOptions where
  baseUrl : Option Path := none
  paths : List PathMapping := []
  configDir : Path := ⟨""⟩
  deriving DecidableEq, Repr

namespace CompilerOptions

def bases (o : CompilerOptions) (specifier : String) : List Path :=
  let root := o.baseUrl.getD o.configDir
  (o.paths.flatMap (·.apply specifier)).map root.join ++ o.baseUrl.toList.map (·.join specifier)

open Json

/-- The settings in the `compilerOptions` record. Mappings are kept in the order of their
patterns. -/
def decodeSettings (configDir : Path) : Decoder CompilerOptions :=
  record ["baseUrl", "paths"] fun depth fields =>
    match fields with
    | [baseUrl, paths] => do
      let baseUrl ← baseUrl.optional .string depth
      let paths ← paths.withDefault [] (.map (.list .string)) depth
      return {
        baseUrl := baseUrl.map configDir.join
        paths := paths.map fun (pattern, targets) => ⟨pattern, targets⟩
        configDir }
    | _ => none

def decode (configDir : Path) : Decoder CompilerOptions :=
  record ["compilerOptions"] fun depth fields =>
    match fields with
    | [settings] => settings.withDefault { configDir } (decodeSettings configDir) depth
    | _ => none

def parse? (text : String) (configDir : Path) : Option CompilerOptions :=
  decode? (decode configDir) (Commented.plain text)

end CompilerOptions

end PropSchema
