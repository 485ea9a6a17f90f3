import PropSchema.Binding.Dialogue
import PropSchema.Module.Resolution
import PropSchema.Number.Literal

/-!
Binding of type syntax to types. What a node denotes is a dialogue about the nodes inside it; the
bindings made so far answer it. Each declaration is bound once: its type is reserved before its
body is bound, so that a body which mentions the declaration again finds the reserved type.
-/

namespace PropSchema

def Scope.within (scope : Scope) (n : Node) : Scope :=
  let names := ((n.child? .typeParameters).map (·.parts)).getD []
  { scope with params := scope.params ++ names.filterMap (·.nameText?) }

namespace Node

def propertyName? (n : Node) : Option String :=
  (n.child? .name).map fun name => if name.kind == .string then name.unquotedText else name.text

def enumMembers (body : Node) : List String :=
  body.parts.filterMap fun m =>
    match m.kind with
    | .propertyIdentifier => some m.text
    | .string => some m.unquotedText
    | .enumAssignment => (m.child? .name).map (·.unquotedText)
    | _ => none

def baseTypes (n : Node) : List Node :=
  (n.parts.filter fun c => c.kind == .extendsTypeClause || c.kind == .extendsClause).flatMap
    parts

structure ParameterSyntax where
  name : String
  rest : Bool
  node : Node

def dropDots : List Char → List Char
  | '.' :: '.' :: '.' :: rest => dropDots rest
  | chars => chars

def parameterSyntax? (n : Node) (place : Nat) : Option ParameterSyntax :=
  if n.kind != .requiredParameter && n.kind != .optionalParameter then none
  else
    let byPlace : ParameterSyntax := ⟨"__" ++ String.ofList (digitText place), false, n⟩
    match n.child? .pattern with
    | none => some byPlace
    | some pattern =>
      match pattern.kind with
      | .identifier => some ⟨pattern.text, false, n⟩
      | .restPattern => some ⟨Text.trim (String.ofList (dropDots pattern.text.toList)), true, n⟩
      | .this => none
      | _ => some byPlace

def parameters (n : Node) : List ParameterSyntax :=
  let all := ((n.child? .parameters).map (·.parts)).getD []
  all.zipIdx.filterMap fun (p, place) => p.parameterSyntax? place

end Node

inductive Meaning
  | type (id : TypeId)
  | declaration (d : Declaration)

namespace Dialogue

variable (P : Program)

def orAny (scope : Scope) : Option Node → Dialogue TypeId
  | some n => typeOf scope n
  | none => primitive .any

def opaqueType (n : Node) : Dialogue TypeId := add (.reference n.squeezedText [])

def literalType (n : Node) : Dialogue TypeId :=
  match n.parts.head? with
  | none => opaqueType n
  | some value =>
    match value.kind with
    | .string => intern (.stringLiteral value.unquotedText)
    | .number | .unaryExpression =>
      match NumberLiteral.canonical? value.text with
      | some number => intern (.numberLiteral number)
      | none => opaqueType n
    | .true => truth true
    | .false => truth false
    | .null => primitive .null
    | .undefined => primitive .undefined
    | _ => opaqueType n

def keywordType (n : Node) : Dialogue TypeId :=
  let keyword := n.squeezedText
  if keyword == "boolean" then boolean
  else primitive ((Primitive.ofKeyword? keyword).getD .any)

def member (scope : Scope) (n : Node) (name : String) (declared : TypeId) : Dialogue Member := do
  let isOptional := n.hasMark .questionMark
  let site ← if isOptional then optional declared else pure declared
  return ⟨name, declared, site, isOptional, some ⟨scope.file, n.line⟩⟩

def parameter (scope : Scope) (p : Node.ParameterSyntax) : Dialogue Parameter := do
  let type ← orAny scope (p.node.child? .type)
  return { name := p.name, type, optional := p.node.kind == .optionalParameter, rest := p.rest }

def signature (scope : Scope) (n : Node) : Dialogue Signature := do
  let scope := scope.within n
  let params ← n.parameters.mapM (parameter scope)
  let returns ← orAny scope (n.child? .returnType)
  return { params, returns }

inductive Entry
  | member (m : Member)
  | call (s : Signature)
  | nothing

def Entry.member? : Entry → Option Member
  | .member m => some m
  | _ => none

def Entry.call? : Entry → Option Signature
  | .call s => some s
  | _ => none

def entry (scope : Scope) (n : Node) : Dialogue Entry :=
  match n.kind, n.propertyName? with
  | .propertySignature, some name => do
    let declared ← orAny scope (n.child? .type)
    return .member (← member scope n name declared)
  | .methodSignature, some name => do
    let signature ← signature scope n
    let declared ← add (.function signature)
    return .member (← member scope n name declared)
  | .callSignature, _ => return .call (← signature scope n)
  | _, _ => return .nothing

def objectBody (scope : Scope) (name : Option String) (body : Node) : Dialogue ObjectType := do
  let entries ← body.parts.mapM (entry scope)
  return ⟨name, entries.filterMap Entry.member?, entries.filterMap Entry.call?⟩

def withBases (scope : Scope) (own : List Member) (bases : List Node) : Dialogue (List Member) :=
  bases.foldlM (fun inherited base => do
    let type ← typeOf scope base
    return mergeMembers inherited (← members type)) own

def ownBody (scope : Scope) (n : Node) (name : String) : Dialogue ObjectType :=
  match n.child? .body with
  | some body => objectBody scope (some name) body
  | none => return ⟨some name, [], []⟩

def interfaceBody (scope : Scope) (n : Node) (name : String) : Dialogue ObjectType := do
  let object ← ownBody scope n name
  return { object with members := ← withBases scope object.members n.baseTypes }

def utilityOrReference (name : String) (args : List TypeId) : Dialogue TypeId :=
  match Utility.ofName? name with
  | none => add (.reference name args)
  | some u => do
    match ← utility u args with
    | some type => return type
    | none => add (.reference name args)

def globalType (name : String) (args : List TypeId) : Dialogue TypeId :=
  match name, args with
  | "Array", [element] | "ReadonlyArray", [element] => intern (.array element)
  | _, _ => utilityOrReference name args

def namedType (scope : Scope) (name : String) (args : List TypeId) : Dialogue Meaning :=
  if scope.params.contains name then .type <$> add (.typeParameter name)
  else
    match P.resolve? .type scope.file name with
    | some d => return .declaration d
    | none => .type <$> globalType name args

def genericType (scope : Scope) (n : Node) : Dialogue Meaning := do
  let args ← (((n.child? .typeArguments).map (·.parts)).getD []).mapM (typeOf scope)
  match n.child? .name with
  | none => .type <$> opaqueType n
  | some name =>
    if name.kind == .nestedTypeIdentifier then .type <$> add (.reference name.squeezedText args)
    else namedType P scope name.text args

def tupleElement (scope : Scope) (n : Node) : Dialogue TupleElement := do
  let (inner, optional, rest) := match n.kind with
    | .optionalType => (n.parts.head?, true, false)
    | .restType => (n.parts.head?, false, true)
    | .tupleParameter => (n.child? .type, false, false)
    | .optionalTupleParameter => (n.child? .type, true, false)
    | _ => (some n, false, false)
  return { type := ← orAny scope inner, optional, rest }

def structuralType (scope : Scope) (n : Node) : Dialogue TypeId :=
  match n.kind with
  | .annotatedType | .parenthesizedType | .readonlyType => orAny scope n.parts.head?
  | .predefinedType => keywordType n
  | .literalType => literalType n
  | .undefined => primitive .undefined
  | .null => primitive .null
  | .templateLiteralType => primitive .string
  | .objectType => do add (.object (← objectBody scope none n))
  | .arrayType => do intern (.array (← orAny scope n.parts.head?))
  | .tupleType => do add (.tuple (← n.parts.mapM (tupleElement scope)))
  | .unionType => do union (← n.parts.mapM (typeOf scope))
  | .intersectionType => do intersection (← n.parts.mapM (typeOf scope))
  | .functionType => do add (.function (← signature scope n))
  | _ => opaqueType n

def meaning (scope : Scope) (n : Node) : Dialogue Meaning :=
  match n.kind with
  | .typeIdentifier | .identifier => namedType P scope n.text []
  | .genericType => genericType P scope n
  | _ => .type <$> structuralType scope n

end Dialogue

structure Bindings where
  table : TypeTable := {}
  declared : List ((FileId × Nat) × TypeId) := []
  deriving Repr

abbrev BindM := StateM Bindings

abbrev Binder (m : Type → Type := BindM) := Scope → Node → m TypeId

namespace Declaration

def key (d : Declaration) : FileId × Nat := (d.file, d.node.id)

def name (d : Declaration) : String := d.node.nameText?.getD ""

def scope (d : Declaration) : Scope := (Scope.mk d.file []).within d.node

def interfaceBody (d : Declaration) : Dialogue ObjectType := .interfaceBody d.scope d.node d.name

def aliasBody (d : Declaration) : Dialogue TypeId := .orAny d.scope (d.node.child? .value)

def leafForm (d : Declaration) : Form :=
  match d.node.kind with
  | .enumDeclaration =>
    .enumeration d.name (((d.node.child? .body).map Node.enumMembers).getD [])
  | _ => .reference d.name []

end Declaration

namespace Bindings

def declare (b : Bindings) (d : Declaration) (f : Form) : Bindings :=
  ⟨(b.table.addForm f).2, (d.key, b.table.size) :: b.declared⟩

def reserve (b : Bindings) (d : Declaration) : Bindings := b.declare d .pending

def fillInterface (b : Bindings) (slot : TypeId) (object : ObjectType) : Bindings :=
  { b with table := b.table.setForm slot (.object object) }

/-- An alias of itself is `any`. -/
def fillAlias (b : Bindings) (slot : TypeId) (name : String) (body : TypeId) : Bindings :=
  if body = slot then { b with table := b.table.setForm slot (.primitive .any) }
  else { b with table := b.table.setAlias slot name body }

def onTable {m : Type → Type} [MonadStateOf Bindings m] (f : TypeTable → TypeId × TypeTable) :
    m TypeId :=
  modifyGet fun b => ((f b.table).1, { b with table := (f b.table).2 })

end Bindings

open Bindings

namespace Binder

variable {m : Type → Type} [Monad m] [MonadStateOf Bindings m] (P : Program) (bind : Binder m)

def answer : (q : Question) → m q.Answer
  | .type scope n => bind scope n
  | .add f _ => onTable (·.addForm f)
  | .intern f _ => onTable (·.intern f)
  | .union types => onTable (·.union types)
  | .intersection types => onTable (·.intersection types)
  | .members type => return (← get).table.members type
  | .keyNames keys => return (← get).table.keyNames keys
  | .display type => return (← get).table.display type

def run {α : Type} : Dialogue α → m α
  | .done value => return value
  | .ask q next => do run (next (← bind.answer q))

def interfaceType (d : Declaration) : m TypeId := do
  let slot ← modifyGet fun b => (b.table.size, b.reserve d)
  let object ← bind.run d.interfaceBody
  modify (·.fillInterface slot object)
  return slot

def aliasType (d : Declaration) : m TypeId := do
  let slot ← modifyGet fun b => (b.table.size, b.reserve d)
  let body ← bind.run d.aliasBody
  modify (·.fillAlias slot d.name body)
  return slot

def leafType (d : Declaration) : m TypeId :=
  modifyGet fun b => (b.table.size, b.declare d d.leafForm)

def newType (d : Declaration) : m TypeId :=
  match d.node.kind with
  | .interfaceDeclaration => bind.interfaceType d
  | .typeAliasDeclaration => bind.aliasType d
  | _ => leafType d

def declarationType (d : Declaration) : m TypeId := do
  match (← get).declared.lookup d.key with
  | some type => return type
  | none => bind.newType d

def meantType : Meaning → m TypeId
  | .type id => return id
  | .declaration d => bind.declarationType d

def nodeType (scope : Scope) (n : Node) : m TypeId := do
  bind.meantType (← bind.run (.meaning P scope n))

end Binder

namespace Program

variable (P : Program)

def bindLevels : Nat := 201

/-- Syntax that is nested too deep denotes `any`. -/
def binderAt : Nat → Binder
  | 0 => fun _ _ => onTable (·.primitive .any)
  | levels + 1 => (binderAt levels).nodeType P

def typeOf (file : FileId) (n : Node) : BindM TypeId := P.binderAt bindLevels ⟨file, []⟩ n

def typeOfDeclaration (d : Declaration) : BindM TypeId := (P.binderAt bindLevels).declarationType d

end Program

end PropSchema
