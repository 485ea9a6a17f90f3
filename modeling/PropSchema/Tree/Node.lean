import PropSchema.Text.Blank
import PropSchema.Text.Quoted
import PropSchema.Tree.Kind

namespace PropSchema

structure Span where
  start : Nat
  stop : Nat
  deriving DecidableEq, Repr

structure Node where
  id : Nat
  kind : Kind
  named : Bool
  field : Option Field
  span : Span
  line : Nat
  text : String
  children : List Node
  deriving Repr

namespace Node

def empty : Node := ⟨0, .other "program", true, none, ⟨0, 0⟩, 1, "", []⟩

def child? (n : Node) (f : Field) : Option Node := n.children.find? (·.field == some f)

def isMeaningful (n : Node) : Bool := n.named && n.kind != .comment

def parts (n : Node) : List Node := n.children.filter isMeaningful

def hasMark (n : Node) (token : Kind) : Bool := n.children.any fun c => ! c.named && c.kind == token

def squeezedText (n : Node) : String := Text.squeeze n.text

def unquotedText (n : Node) : String := Text.unquote n.text

def nameText? (n : Node) : Option String := (n.child? .name).map (·.text)

end Node

end PropSchema
