import PropSchema.Schema.Definition
import PropSchema.Ty.Kind
import PropSchema.Ty.UnionShape

/-!
From the members of a type to prop definitions. Objects are expanded, except inside themselves; the
variants of a union become children. Objects end the recursion by the trail of the types being
expanded, unions because a union nested in unions deeper than there are types is nested in itself.
The result is `none` exactly when a union is nested in itself. The trail is passed down, or it is a
state that many extractions share, where every expansion leaves what it entered.
-/

namespace PropSchema

/-- The types being expanded, as they are written, innermost first. -/
abbrev Trail := List String

def Trail.limit : Nat := 64

namespace TypeTable

def propByForm {m : Type → Type} [Monad m] (t : TypeTable)
    (expand : TypeId → m (List PropDefinition)) (nested : TypeId → m PropDefinition) (name : String)
    (required : Bool) (ty : TypeId) : m PropDefinition :=
  let declared := t.declared ty
  match t.kind declared with
  | .union =>
    match t.unionShape ty with
    | .boolean => pure (.plain name "boolean" required)
    | .literals options => pure (.choice name TypeKind.enumLiteral.label required options)
    | .single inner => nested inner
    | .mixed [] => pure (.plain name "unknown" required)
    | .mixed variants => .group name TypeKind.union.label required <$> variants.mapM nested
  | .enumLiteral =>
    pure (.choice name TypeKind.enumLiteral.label required [t.optionText declared])
  | .object => .group name TypeKind.object.label required <$> expand ty
  | _ => pure (.plain name (Label.clean (t.display declared)) required)

/-- The definition of a prop of the given type: its text decides first, then its structure. The
number bounds the nesting of unions. -/
def propAt {m : Type → Type} [Monad m] [MonadLiftT Option m] (t : TypeTable)
    (expand : TypeId → m (List PropDefinition)) (name : String) (required : Bool) :
    Nat → TypeId → m PropDefinition
  | 0, _ => liftM (none : Option PropDefinition)
  | nesting + 1, ty =>
    let shown := t.display (t.declared ty)
    if Label.isAtomic shown then pure (.plain name (Label.clean shown) required)
    else t.propByForm expand (t.propAt expand name required nesting) name required ty

def unionLevels (t : TypeTable) : Nat := t.size + 1

def propsAt (t : TypeTable) : Nat → Trail → TypeId → Option (List PropDefinition)
  | 0, _, _ => some []
  | room + 1, trail, ty =>
    let shown := t.display ty
    if trail.contains shown then some []
    else
      ((t.members ty).filter (·.declaration.isSome)).mapM fun m =>
        t.propAt (t.propsAt room (shown :: trail)) m.name (! m.optional) t.unionLevels m.site

def propsWithin (t : TypeTable) (trail : Trail) (ty : TypeId) : Option (List PropDefinition) :=
  t.propsAt (Trail.limit - trail.length) trail ty

def propWithin (t : TypeTable) (trail : Trail) (name : String) (optional : Bool) (ty : TypeId) :
    Option PropDefinition :=
  t.propAt (t.propsWithin trail) name (! optional) t.unionLevels ty

def props (t : TypeTable) (ty : TypeId) : Option (List PropDefinition) := t.propsWithin [] ty

end TypeTable

abbrev Extraction := StateT Trail Option

section

variable {m : Type → Type} [Monad m] [MonadStateOf Trail m]

def Trail.enter (shown : String) : m Unit := modifyThe Trail (shown :: ·)

def Trail.leave : m Unit := modifyThe Trail List.tail

/-- The props of a type, which is on the shared trail while its members are defined. The number
bounds the expansions inside one another. -/
def TypeTable.expandAt [MonadLiftT Option m] (t : TypeTable) :
    Nat → TypeId → m (List PropDefinition)
  | 0, _ => liftM (none : Option (List PropDefinition))
  | depth + 1, ty => do
    let shown := t.display ty
    let trail ← getThe Trail
    if shown ∈ trail ∨ Trail.limit ≤ trail.length then return []
    else
      Trail.enter shown
      let props ← ((t.members ty).filter (·.declaration.isSome)).mapM fun m =>
        t.propAt (t.expandAt depth) m.name (! m.optional) t.unionLevels m.site
      Trail.leave
      return props

end

namespace TypeTable

def extract (t : TypeTable) (ty : TypeId) : Extraction (List PropDefinition) :=
  t.expandAt (Trail.limit + 1) ty

def define (t : TypeTable) (name : String) (optional : Bool) (ty : TypeId) :
    Extraction PropDefinition :=
  t.propAt t.extract name (! optional) t.unionLevels ty

end TypeTable

end PropSchema
