import PropSchema.Module.Program

/-!
What a name stands for: the declaration that a name used in a module, its default export or one of
its exports leads to, through imports and exports of other modules.
-/

namespace PropSchema

inductive Namespace
  | value
  | type
  deriving DecidableEq, Repr

namespace Node

def isNamed (n : Node) (name : String) : Bool := n.nameText? == some name

def declarationHere? (space : Namespace) (name : String) (n : Node) : Option Node :=
  match space, n.kind with
  | .value, .functionDeclaration | .value, .generatorFunctionDeclaration
  | .value, .functionSignature | .value, .classDeclaration | .value, .abstractClassDeclaration =>
    if n.isNamed name then some n else none
  | .value, .lexicalDeclaration | .value, .variableDeclaration =>
    n.parts.find? fun c => c.kind == .variableDeclarator && c.isNamed name
  | .type, .interfaceDeclaration | .type, .typeAliasDeclaration | .type, .enumDeclaration =>
    if n.isNamed name then some n else none
  | _, _ => none

mutual

def declarationOf? (space : Namespace) (name : String) : Node → Option Node
  | ⟨_, .ambientDeclaration, _, _, _, _, _, children⟩ => declarationAmong? space name children
  | n => n.declarationHere? space name

def declarationAmong? (space : Namespace) (name : String) : List Node → Option Node
  | [] => none
  | c :: rest =>
    if c.isMeaningful then (declarationOf? space name c).or (declarationAmong? space name rest)
    else declarationAmong? space name rest

end

end Node

inductive Query
  | name (file : FileId) (name : String)
  | exported (file : FileId) (name : String)
  | defaultExport (file : FileId)
  deriving DecidableEq, Repr

/-- What a statement says about a name: its declaration is here, or is found by another question,
or cannot be found because the module is external. -/
inductive Target
  | here (node : Node)
  | elsewhere (query : Query)
  | external
  deriving Repr

namespace Program

variable (P : Program) (space : Namespace)

/-- The module an export statement takes its names from: `none` if there is no such clause,
`some none` if that module is external. -/
def exportOrigin? (file : FileId) (statement : Node) : Option (Option FileId) :=
  (statement.child? .source).map fun source => P.link? file source.unquotedText

def specifierLocal? (exported : String) (specifier : Node) : Option String :=
  if specifier.kind == .exportSpecifier then do
    let name ← specifier.child? .name
    let shown := (specifier.child? .otherName).getD name
    if shown.unquotedText == exported then some name.unquotedText else none
  else none

def clauseTarget? (file : FileId) (statement : Node) (exported : String) : Option Target := do
  let clause ← statement.parts.find? (·.kind == .exportClause)
  let name ← clause.parts.findSome? (specifierLocal? exported)
  match P.exportOrigin? file statement with
  | some (some m) => some (.elsewhere (.exported m name))
  | some none => some .external
  | none => some (.elsewhere (.name file name))

def importedName? (name : String) (specifier : Node) : Option String :=
  if specifier.kind == .importSpecifier then do
    let imported ← specifier.child? .name
    let known := ((specifier.child? .otherName).map (·.text)).getD imported.unquotedText
    if known == name then some imported.unquotedText else none
  else none

def importTarget? (file : FileId) (statement : Node) (name : String) : Option Target := do
  let clause ← statement.parts.find? (·.kind == .importClause)
  let imported ← clause.parts.findSome? fun part =>
    match part.kind with
    | .identifier => if part.text == name then some "default" else none
    | .namedImports => part.parts.findSome? (importedName? name)
    | _ => none
  let source := (statement.child? .source).bind fun s => P.link? file s.unquotedText
  match source with
  | some m => some (.elsewhere (.exported m imported))
  | none => some .external

def nameTarget? (file : FileId) (name : String) (statement : Node) : Option Target :=
  match statement.kind with
  | .exportStatement =>
    ((statement.child? .declaration).bind (Node.declarationOf? space name)).map .here
  | .importStatement => P.importTarget? file statement name
  | _ => (statement.declarationOf? space name).map .here

def defaultTarget? (file : FileId) (statement : Node) : Option Target :=
  if statement.kind != .exportStatement then none
  else if statement.hasMark .default then
    match (statement.child? .declaration).or (statement.child? .value) with
    | some node => some (.here node)
    | none => some .external
  else P.clauseTarget? file statement "default"

def exportTarget? (file : FileId) (exported : String) (statement : Node) : Option Target :=
  if statement.kind != .exportStatement then none
  else
    match (statement.child? .declaration).bind (Node.declarationOf? space exported) with
    | some node => some (.here node)
    | none => P.clauseTarget? file statement exported

def starOrigin? (file : FileId) (statement : Node) : Option FileId :=
  if statement.kind == .exportStatement && statement.hasMark .star then
    (P.exportOrigin? file statement).join
  else none

def follow (next : Query → Option Declaration) (file : FileId) : Target → Option Declaration
  | .here node => some ⟨file, node⟩
  | .elsewhere query => next query
  | .external => none

def unnamedExport (next : Query → Option Declaration) (file : FileId) (exported : String) :
    Option Declaration :=
  let statements := P.statements file
  let fromStar := statements.findSome? fun s =>
    (P.starOrigin? file s).bind fun m => next (.exported m exported)
  fromStar.or ((statements.findSome? (Node.declarationOf? space exported)).map (⟨file, ·⟩))

def answer (next : Query → Option Declaration) : Query → Option Declaration
  | .name file name =>
    (P.statements file).findSome? (P.nameTarget? space file name) >>= follow next file
  | .defaultExport file =>
    (P.statements file).findSome? (P.defaultTarget? file) >>= follow next file
  | .exported file exported =>
    if exported == "default" then next (.defaultExport file)
    else
      match (P.statements file).findSome? (P.exportTarget? space file exported) with
      | some target => follow next file target
      | none => P.unnamedExport space next file exported

def questionLimit : Nat := 17

def answerAt : Nat → Query → Option Declaration
  | 0, _ => none
  | limit + 1, query => P.answer space (answerAt limit) query

def resolve? (file : FileId) (name : String) : Option Declaration :=
  P.answerAt space questionLimit (.name file name)

def defaultExport? (file : FileId) : Option Declaration :=
  P.answerAt .value questionLimit (.defaultExport file)

end Program

end PropSchema
