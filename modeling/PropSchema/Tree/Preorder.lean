import PropSchema.Tree.Node

namespace PropSchema

namespace Preorder

structure Item where
  kind : String
  named : Bool
  field : String
  span : Span
  arity : Nat
  deriving DecidableEq, Repr

def slice (bytes : ByteArray) (span : Span) : String :=
  (String.fromUTF8? (bytes.extract span.start span.stop)).getD ""

def lineAt (bytes : ByteArray) (offset : Nat) : Nat :=
  (bytes.extract 0 offset).toList.countP (· == 10) + 1

def Item.node (bytes : ByteArray) (item : Item) (id : Nat) (children : List Node) : Node :=
  { id, kind := Kind.ofName item.kind, named := item.named, field := Field.ofName? item.field
    span := item.span, line := lineAt bytes item.span.start, text := slice bytes item.span
    children }

/-- The trees that a list of nodes describes. Read from its end, each node finds its children
already built. -/
def forest (bytes : ByteArray) (items : List Item) : List Node :=
  items.zipIdx.foldr
    (fun (item, id) later => item.node bytes id (later.take item.arity) :: later.drop item.arity) []

end Preorder

def Node.ofPreorder? (source : String) (items : List Preorder.Item) : Option Node :=
  match Preorder.forest source.toUTF8 items with
  | [root] => some root
  | _ => none

end PropSchema
