import PropSchema.Ty.Label

namespace PropSchema

inductive UnionShape
  | boolean
  | literals (options : List String)
  | single (type : TypeId)
  | mixed (variants : List TypeId)
  deriving DecidableEq, Repr

namespace TypeTable

/-- The option a literal stands for. A type that is no literal stands for its label, without a
quote at either end. -/
def optionText (t : TypeTable) (id : TypeId) : String :=
  match (t.form id).literal? with
  | some value => value
  | none =>
    let isQuote (c : Char) := c == '"' || c == '\x27'
    let dropQuote : List Char → List Char
      | c :: rest => if isQuote c then rest else c :: rest
      | [] => []
    let label := (Label.clean (t.display id)).toList
    String.ofList (dropQuote (dropQuote label).reverse).reverse

def variantRank (t : TypeTable) (id : TypeId) : Nat := (t.form id).rank?.getD 255

def unionShape (t : TypeTable) (id : TypeId) : UnionShape :=
  let variants := (t.variants id).filter fun v => ! (t.form v).isNullish
  let (literals, others) := variants.partition fun v => (t.form v).isLiteral
  if ! literals.isEmpty && others.isEmpty then
    let values := literals.map t.optionText
    if literals.length == 2 && literals.all (fun v => (t.form v).isBooleanLiteral) &&
        values.contains "true" && values.contains "false" then .boolean
    else .literals ((values.filter (! ·.isEmpty)).mergeSort fun a b => decide (a ≤ b))
  else
    match literals, others with
    | [], [one] => .single one
    | _, _ => .mixed (variants.mergeSort fun a b => decide (t.variantRank a ≤ t.variantRank b))

end TypeTable

end PropSchema
