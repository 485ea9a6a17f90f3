import PropSchema.Binding.Basic
import PropSchema.Schema.Extraction
import PropSchema.Schema.Key

namespace PropSchema

namespace Node

def isParameter (n : Node) : Bool := n.kind == .requiredParameter || n.kind == .optionalParameter

def isFunction (n : Node) : Bool :=
  match n.kind with
  | .functionDeclaration | .functionExpression | .function | .arrowFunction
  | .generatorFunctionDeclaration | .generatorFunction => true
  | _ => false

def typeArguments (n : Node) : List Node :=
  ((n.child? .typeArguments).map (·.parts)).getD []

def parameterType? (n : Node) : Option Node := do
  let parameters ← n.child? .parameters
  let first ← parameters.parts.find? isParameter
  first.child? .type

def calleeName? (n : Node) : Option String := do
  let callee ← n.child? .function
  match callee.kind with
  | .identifier => some callee.text
  | .memberExpression => (callee.child? .property).map (·.text)
  | _ => none

def firstArgument? (n : Node) : Option Node :=
  (n.child? .arguments).bind (·.parts.head?)

def isComponentType (name : String) : Bool :=
  let last := String.ofList (name.toList.reverse.takeWhile (· != '.')).reverse
  last == "FC" || last == "FunctionComponent"

def annotatedProps? (n : Node) : Option Node := do
  let annotated ← n.child? .type
  let generic ← annotated.parts.find? (·.kind == .genericType)
  let name ← generic.nameText?
  if isComponentType name then generic.typeArguments.head? else none

end Node

/-- What a node says about the props of the component it defines: their type is written here, or
the component is defined by another node, or this is no component. -/
inductive PropsSource
  | type (node : Node)
  | component (file : FileId) (node : Node)
  | unknown

namespace Program

variable (P : Program)

def callSource (file : FileId) (n : Node) : PropsSource :=
  let wrapped := match n.firstArgument? with
    | some argument => PropsSource.component file argument
    | none => .unknown
  match n.calleeName? with
  | some "memo" => wrapped
  | some "forwardRef" =>
    match n.typeArguments with
    | _ :: props :: _ => .type props
    | _ => wrapped
  | _ => .unknown

def propsSource (file : FileId) (n : Node) : PropsSource :=
  if n.isFunction then
    match n.parameterType? with
    | some annotated => .type annotated
    | none => .unknown
  else
    match n.kind with
    | .callExpression => callSource file n
    | .identifier =>
      match P.resolve? .value file n.text with
      | some d => .component d.file d.node
      | none => .unknown
    | _ => .unknown

def locateLevels : Nat := 33

/-- Where the type of the props of the component that a node defines is written. A variable has the
props of its value, or else those its annotation names. -/
def propsNodeAt : Nat → FileId → Node → Option (FileId × Node)
  | 0, _, _ => none
  | levels + 1, file, n =>
    if n.kind == .variableDeclarator then
      ((n.child? .value).bind (propsNodeAt levels file)).or (n.annotatedProps?.map (file, ·))
    else
      match P.propsSource file n with
      | .type node => some (file, node)
      | .component file node => propsNodeAt levels file node
      | .unknown => none

def propsNode? (d : Declaration) : Option (FileId × Node) := P.propsNodeAt locateLevels d.file d.node

/-- The entry of a module whose component has props of this type, if their extraction ends. A
component without props has none. -/
def entryOf (root : Path) (file : FileId) (t : TypeTable) (type : TypeId) :
    Option (Option SchemaEntry) :=
  (t.props type).map fun props =>
    if props.isEmpty then none else (schemaKey? root (P.moduleAt file).path).map (⟨·, props⟩)

end Program

namespace Binder

variable {m : Type → Type} [Monad m] [MonadStateOf Bindings m] (P : Program) (bind : Binder m)

def propsType (d : Declaration) : m (Option TypeId) :=
  match P.propsNode? d with
  | none => return none
  | some (file, n) => some <$> bind ⟨file, []⟩ n

def schemaEntry (root : Path) (file : FileId) : m (Option (Option SchemaEntry)) := do
  match P.defaultExport? file with
  | none => return some none
  | some d =>
    match ← bind.propsType P d with
    | none => return some none
    | some type => return P.entryOf root file (← get).table type

end Binder

namespace Program

variable (P : Program)

def propsType (d : Declaration) : BindM (Option TypeId) := (P.binderAt bindLevels).propsType P d

def schemaEntry (root : Path) (file : FileId) : BindM (Option (Option SchemaEntry)) :=
  (P.binderAt bindLevels).schemaEntry P root file

end Program

end PropSchema
