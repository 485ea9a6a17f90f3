import PropSchema.Glob.Pattern
import PropSchema.Path.Basic

namespace PropSchema

inductive FileTask
  | resolveSource
  | resolveChange
  | readTsconfig
  | readSource
  | readSchema
  | createDirectory
  | createOutput
  deriving DecidableEq, Repr

def FileTask.failure : FileTask → String
  | .resolveSource => "Failed to resolve source directory"
  | .resolveChange => "Failed to resolve changed file"
  | .readTsconfig => "Failed to read tsconfig"
  | .readSource => "Failed to read source file"
  | .readSchema => "Failed to read schema file"
  | .createDirectory => "Failed to create output directory"
  | .createOutput => "Failed to create output file"

inductive Error
  | file (task : FileTask) (path : Path)
  | malformedTsconfig (path : Path)
  | malformedConfig (fileName : String)
  | malformedSchema
  | unreadableDirectory (path : Path)
  | pattern (error : Glob.Error)
  deriving DecidableEq, Repr

def Error.message : Error → String
  | .file task path => task.failure ++ ": " ++ path.text
  | .malformedTsconfig path => "Configuration error: " ++ path.text
  | .malformedConfig fileName => "Configuration error: Failed to parse " ++ fileName
  | .malformedSchema => "Malformed schema"
  | .unreadableDirectory path => "Failed to read source directory " ++ path.text
  | .pattern e => e.message

def compilePatterns (patterns : List String) : Except Error (List Glob.Pattern) :=
  (patterns.mapM Glob.compile).mapError .pattern

end PropSchema
