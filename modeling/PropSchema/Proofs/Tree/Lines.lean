import PropSchema.Module.Program

namespace PropSchema.Program

structure SourceLine where
  id : Nat
  start : Nat
  number : Nat

def SourceLine.node (l : SourceLine) (id : Nat) (kind : Kind) (named : Bool) (field : Option Field)
    (column : Nat) (text : String) (children : List Node) : Node :=
  { id := l.id + id, kind, named, field
    span := ⟨l.start + column, l.start + column + text.utf8ByteSize⟩
    line := l.number, text, children }

def SourceLine.token (l : SourceLine) (id column : Nat) (text : String) : Node :=
  l.node id (.ofName text) false none column text []

def SourceLine.typeName (l : SourceLine) (id : Nat) (field : Option Field) (column : Nat)
    (name : String) : Node :=
  l.node id .typeIdentifier true field column name []

def SourceLine.keywordType (l : SourceLine) (id : Nat) (field : Option Field) (column : Nat)
    (keyword : String) : Node :=
  l.node id .predefinedType true field column keyword [l.token (id + 1) column keyword]

def SourceLine.stringType (l : SourceLine) (id : Nat) (field : Option Field) (column : Nat)
    (value : String) : Node :=
  let text := "\"" ++ value ++ "\""
  l.node id .literalType true field column text [
    l.node (id + 1) .string true none column text [
      l.token (id + 2) column "\"",
      l.node (id + 3) (.other "string_fragment") true none (column + 1) value [],
      l.token (id + 4) (column + 1 + value.utf8ByteSize) "\""]]

def SourceLine.unionType (l : SourceLine) (id mark : Nat) (field : Option Field) (column : Nat)
    (left right : Node) : Node :=
  l.node id .unionType true field column (left.text ++ " | " ++ right.text) [
    left, l.token mark (column + left.text.utf8ByteSize + 1) "|", right]

def SourceLine.interface (l : SourceLine) (name member target : String) : Node :=
  let column := 11 + name.utf8ByteSize
  let signature := member ++ ": " ++ target
  let body := "\x7b " ++ signature ++ " \x7d"
  let colon := column + 2 + member.utf8ByteSize
  l.node 0 .interfaceDeclaration true none 0 ("interface " ++ name ++ " " ++ body) [
    l.token 1 0 "interface",
    l.typeName 2 (some .name) 10 name,
    l.node 3 (.other "interface_body") true (some .body) column body [
      l.token 4 column "\x7b",
      l.node 5 .propertySignature true none (column + 2) signature [
        l.node 6 .propertyIdentifier true (some .name) (column + 2) member [],
        l.node 7 .annotatedType true (some .type) colon (": " ++ target) [
          l.token 8 colon ":",
          l.typeName 9 none (colon + 2) target]],
      l.token 10 (colon + 3 + target.utf8ByteSize) "\x7d"]]

def SourceLine.typeAlias (l : SourceLine) (name : String) (value : Node) : Node :=
  l.node 0 .typeAliasDeclaration true none 0 ("type " ++ name ++ " = " ++ value.text) [
    l.token 1 0 "type",
    l.typeName 2 (some .name) 5 name,
    l.token 3 (6 + name.utf8ByteSize) "=",
    value]

def SourceLine.nameAlias (l : SourceLine) (name target : String) : Node :=
  l.typeAlias name (l.typeName 4 (some .value) (8 + name.utf8ByteSize) target)

def SourceLine.component (l : SourceLine) (props : String) : Node :=
  let parameter := "p: " ++ props
  let arrow := "(" ++ parameter ++ ") => null"
  let stop := 19 + props.utf8ByteSize
  l.node 0 .exportStatement true none 0 ("export default " ++ arrow) [
    l.token 1 0 "export",
    l.token 2 7 "default",
    l.node 3 .arrowFunction true (some .value) 15 arrow [
      l.node 4 (.other "formal_parameters") true (some .parameters) 15 ("(" ++ parameter ++ ")") [
        l.token 5 15 "(",
        l.node 6 .requiredParameter true none 16 parameter [
          l.node 7 .identifier true (some .pattern) 16 "p" [],
          l.node 8 .annotatedType true (some .type) 17 (": " ++ props) [
            l.token 9 17 ":",
            l.typeName 10 none 19 props]],
        l.token 11 stop ")"],
      l.token 12 (stop + 2) "=>",
      l.node 13 .null true (some .body) (stop + 5) "null" []]]

def SourceLine.importFrom (l : SourceLine) (id : Nat) (clause : Node) (source : String) : Node :=
  let column := 8 + clause.text.utf8ByteSize
  let quoted := "'" ++ source ++ "'"
  l.node 0 .importStatement true none 0 ("import " ++ clause.text ++ " from " ++ quoted) [
    l.token 1 0 "import",
    clause,
    l.token id column "from",
    l.node (id + 1) .string true (some .source) (column + 5) quoted [
      l.token (id + 2) (column + 5) "'",
      l.node (id + 3) (.other "string_fragment") true none (column + 6) source [],
      l.token (id + 4) (column + 6 + source.utf8ByteSize) "'"]]

def SourceLine.namedImport (l : SourceLine) (name source : String) : Node :=
  let names := "\x7b " ++ name ++ " \x7d"
  l.importFrom 8 (l.node 2 .importClause true none 7 names [
    l.node 3 .namedImports true none 7 names [
      l.token 4 7 "\x7b",
      l.node 5 .importSpecifier true none 9 name [l.node 6 .identifier true (some .name) 9 name []],
      l.token 7 (10 + name.utf8ByteSize) "\x7d"]]) source

def SourceLine.defaultImport (l : SourceLine) (name source : String) : Node :=
  l.importFrom 4 (l.node 2 .importClause true none 7 name [
    l.node 3 .identifier true none 7 name []]) source

def moduleOf (path : String) (lines : List Node) : SourceModule :=
  let source : SourceLine := ⟨0, 0, 1⟩
  let text := String.join (lines.map (·.text ++ "\n"))
  ⟨⟨path⟩, source.node 0 (.other "program") true none 0 text lines⟩

def ofLines (path : Path) (lines : List Node) : Program :=
  let source : SourceLine := ⟨0, 0, 1⟩
  let text := String.join (lines.map (·.text ++ "\n"))
  .ofSources [⟨path, source.node 0 (.other "program") true none 0 text lines⟩]

end PropSchema.Program
