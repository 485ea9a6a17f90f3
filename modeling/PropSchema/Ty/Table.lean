import PropSchema.Ty.Form

/-!
The table of the types of a program. Keyword types, literals, unions and arrays are interned: the
same form gives the same number. Every other type is allocated anew. A declaration first reserves a
number and is filled later, so its body may refer back to it.
-/

namespace PropSchema

structure Alias where
  name : String
  declared : TypeId
  deriving DecidableEq, Repr

structure Entry where
  form : Form
  aliasOf : Option Alias
  deriving DecidableEq, Repr

structure TypeTable where
  entries : Array Entry := #[]
  interned : List (Form × TypeId) := []
  deriving Repr

def mergeMembers (own extra : List Member) : List Member :=
  extra.foldl (fun acc m => if acc.any (·.name == m.name) then acc else acc ++ [m]) own

namespace TypeTable

def size (t : TypeTable) : Nat := t.entries.size

def entry (t : TypeTable) (id : TypeId) : Entry := t.entries.getD id ⟨.pending, none⟩

def alias? (t : TypeTable) (id : TypeId) : Option Alias := (t.entry id).aliasOf

def declared (t : TypeTable) (id : TypeId) : TypeId :=
  match t.alias? id with
  | some a => a.declared
  | none => id

def aliasHops : Nat := 8

/-- An alias that is pending because its target was pending when it was filled has the form of
its target. -/
def formAt (t : TypeTable) : Nat → TypeId → Form
  | 0, id => (t.entry id).form
  | hops + 1, id =>
    match t.entry id with
    | ⟨.pending, some a⟩ => if a.declared = id then .pending else t.formAt hops a.declared
    | e => e.form

def form (t : TypeTable) (id : TypeId) : Form := t.formAt aliasHops id

def addForm (t : TypeTable) (f : Form) : TypeId × TypeTable :=
  (t.size, { t with entries := t.entries.push ⟨f, none⟩ })

def addPending (t : TypeTable) : TypeId × TypeTable := t.addForm .pending

def setForm (t : TypeTable) (id : TypeId) (f : Form) : TypeTable :=
  { t with entries := t.entries.setIfInBounds id { t.entry id with form := f } }

def setAlias (t : TypeTable) (id : TypeId) (name : String) (target : TypeId) : TypeTable :=
  { t with entries := t.entries.setIfInBounds id ⟨t.form target, some ⟨name, target⟩⟩ }

def intern (t : TypeTable) (f : Form) : TypeId × TypeTable :=
  match t.interned.lookup f with
  | some id => (id, t)
  | none =>
    let (id, t) := t.addForm f
    (id, { t with interned := (f, id) :: t.interned })

def primitive (t : TypeTable) (p : Primitive) : TypeId × TypeTable := t.intern (.primitive p)

def stringLiteral (t : TypeTable) (value : String) : TypeId × TypeTable :=
  t.intern (.stringLiteral value)

def numberLiteral (t : TypeTable) (value : String) : TypeId × TypeTable :=
  t.intern (.numberLiteral value)

def booleanLiteral (t : TypeTable) (value : Bool) : TypeId × TypeTable :=
  t.intern (.booleanLiteral value)

def array (t : TypeTable) (element : TypeId) : TypeId × TypeTable := t.intern (.array element)

def constituents (t : TypeTable) (id : TypeId) : List TypeId :=
  match t.form id with
  | .union parts => parts
  | .primitive .never => []
  | _ => [id]

def union (t : TypeTable) (types : List TypeId) : TypeId × TypeTable :=
  match (types.flatMap t.constituents).eraseDups with
  | [] => t.primitive .never
  | [one] => (one, t)
  | parts => t.intern (.union parts)

def boolean (t : TypeTable) : TypeId × TypeTable :=
  let (no, t) := t.booleanLiteral false
  let (yes, t) := t.booleanLiteral true
  t.union [no, yes]

def optional (t : TypeTable) (declared : TypeId) : TypeId × TypeTable :=
  let (undefined, t) := t.primitive .undefined
  t.union [declared, undefined]

def factors (t : TypeTable) (id : TypeId) : List TypeId :=
  match t.form id with
  | .intersection parts => parts
  | _ => [id]

def intersection (t : TypeTable) (types : List TypeId) : TypeId × TypeTable :=
  match types.flatMap t.factors with
  | [one] => (one, t)
  | parts => t.addForm (.intersection parts)

def memberLevels : Nat := 33

def formMembers (members : TypeId → List Member) : Form → List Member
  | .object type => type.members
  | .intersection parts => parts.foldl (fun acc part => mergeMembers acc (members part)) []
  | .union [] => []
  | .union (first :: rest) =>
    let others := rest.map members
    (members first).filter fun m => others.all (·.any (·.name == m.name))
  | _ => []

def membersAt (t : TypeTable) : Nat → TypeId → List Member
  | 0, _ => []
  | levels + 1, id => formMembers (t.membersAt levels) (t.form id)

def members (t : TypeTable) (id : TypeId) : List Member := t.membersAt memberLevels id

def variants (t : TypeTable) (id : TypeId) : List TypeId :=
  match t.form id with
  | .union parts => parts
  | _ => []

end TypeTable

end PropSchema
