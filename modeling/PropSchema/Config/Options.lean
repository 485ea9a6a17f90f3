import PropSchema.Json.Decoder
import PropSchema.Path.Basic

namespace PropSchema

def defaultTsconfig : String := "tsconfig.json"

def defaultConstant : String := "COMPONENT_PROPS"

structure Options where
  sourceDir : Path
  tsconfig : Path := ⟨defaultTsconfig⟩
  verbose : Bool := false
  generateJson : Bool := false
  constantName : String := defaultConstant
  ignorePatterns : List String := []
  deriving DecidableEq, Repr

structure Config where
  tsconfig : Option Path := none
  constantName : Option String := none
  verbose : Option Bool := none
  ignorePatterns : Option (List String) := none
  deriving DecidableEq, Repr

structure Flags where
  tsconfig : Option Path := none
  constantName : Option String := none
  verbose : Bool := false
  deriving DecidableEq, Repr

namespace Options

open Json in
def decode : Decoder Options :=
  record ["source_dir", "tsconfig_path", "verbose", "generate_json", "constant_name",
      "ignore_patterns"] fun depth fields =>
    match fields with
    | [sourceDir, tsconfig, verbose, generateJson, constantName, ignorePatterns] => do
      return {
        sourceDir := ⟨← sourceDir.required .string depth⟩
        tsconfig := ⟨← tsconfig.withDefault defaultTsconfig .string depth⟩
        verbose := ← verbose.withDefault false .bool depth
        generateJson := ← generateJson.withDefault false .bool depth
        constantName := ← constantName.withDefault defaultConstant .string depth
        ignorePatterns := ← ignorePatterns.withDefault [] (.list .string) depth }
    | _ => none

def withConfig (o : Options) (c : Config) : Options :=
  { o with
    tsconfig := c.tsconfig.getD o.tsconfig
    constantName := c.constantName.getD o.constantName
    verbose := c.verbose.getD o.verbose
    ignorePatterns := c.ignorePatterns.getD o.ignorePatterns }

def withFlags (o : Options) (f : Flags) : Options :=
  { o with
    tsconfig := f.tsconfig.getD o.tsconfig
    constantName := f.constantName.getD o.constantName
    verbose := f.verbose || o.verbose }

def combine (sourceDir : Path) (f : Flags) (c : Config) : Options :=
  (({ sourceDir } : Options).withConfig c).withFlags f

end Options

end PropSchema
