import PropSchema.Text.Affix

namespace PropSchema

structure Path where
  text : String
  deriving DecidableEq, Repr, Inhabited

inductive Component
  | root
  | current
  | parent
  | normal (name : String)
  deriving DecidableEq, Repr

def Component.text : Component → String
  | .root => "/"
  | .current => "."
  | .parent => ".."
  | .normal name => name

namespace Path

def component? : List Char → Option Component
  | [] => none
  | ['.'] => none
  | ['.', '.'] => some .parent
  | name => some (.normal (String.ofList name))

def IsName (text : String) : Prop :=
  component? text.toList = some (.normal text) ∧ '/' ∉ text.toList

instance (text : String) : Decidable (IsName text) := inferInstanceAs (Decidable (_ ∧ _))

def segments (chars : List Char) : List (List Char) := chars.splitOn '/'

def splitLead : List Char → Option Component × List Char
  | '/' :: body => (some .root, body)
  | ['.'] => (some .current, [])
  | '.' :: '/' :: body => (some .current, '/' :: body)
  | body => (none, body)

def components (p : Path) : List Component :=
  let (lead, body) := splitLead p.text.toList
  lead.toList ++ (segments body).filterMap component?

def isAbsolute (p : Path) : Bool := Text.startsWith "/" p.text

def ofComponents : List Component → Path
  | .root :: rest => ⟨"/" ++ "/".intercalate (rest.map Component.text)⟩
  | components => ⟨"/".intercalate (components.map Component.text)⟩

def join (p : Path) (q : String) : Path :=
  if Text.startsWith "/" q || p.text.isEmpty then ⟨q⟩
  else if Text.endsWith "/" p.text then ⟨p.text ++ q⟩
  else ⟨p.text ++ "/" ++ q⟩

def trimSegments (segments : List (List Char)) : List (List Char) :=
  (segments.reverse.dropWhile fun s => (component? s).isNone).reverse

def parent? (p : Path) : Option Path :=
  let (lead, body) := splitLead p.text.toList
  let leadText := (lead.map Component.text).getD ""
  match trimSegments (segments body) with
  | [] => if lead == some .current then some ⟨""⟩ else none
  | whole =>
    some ⟨leadText ++ String.ofList (['/'].intercalate (trimSegments whole.dropLast))⟩

def ancestors : Nat → Path → List Path
  | 0, _ => []
  | limit + 1, p => p :: (match p.parent? with
    | some above => ancestors limit above
    | none => [])

def fileName? (p : Path) : Option String :=
  match p.components.getLast? with
  | some (.normal name) => some name
  | _ => none

def extension? (p : Path) : Option String := do
  let name ← p.fileName?
  let reversed := name.toList.reverse
  match reversed.dropWhile (· != '.') with
  | '.' :: _ :: _ => some (String.ofList (reversed.takeWhile (· != '.')).reverse)
  | _ => none

def below? (p directory : Path) : Option (List Component) :=
  directory.components.isPrefixOf? p.components

def isBelow (p directory : Path) : Bool := (p.below? directory).isSome

def pop (p : Path) : Path := p.parent?.getD p

/-- One step of normalization, on the path so far. A parent takes back a name; anything else it
cannot take back. -/
def normalStep (done : Path) : Component → Path
  | .current => done
  | .parent => if done.fileName?.isSome then done.pop else done.join ".."
  | c => done.join c.text

def normalize (p : Path) : Path := p.components.foldl normalStep ⟨""⟩

end Path

structure FileName where
  text : String
  isName : Path.IsName text
  deriving DecidableEq, Repr

namespace FileName

instance : LT FileName := ⟨fun a b => a.text < b.text⟩

instance : DecidableLT FileName := fun a b => inferInstanceAs (Decidable (a.text < b.text))

def ofText? (text : String) : Option FileName :=
  if h : Path.IsName text then some ⟨text, h⟩ else none

@[simp] theorem ofText?_text (name : FileName) : ofText? name.text = some name := dif_pos name.isName

end FileName

def Component.fileName? : Component → Option FileName
  | .normal name => FileName.ofText? name
  | _ => none

namespace Path

def ofNames (names : List FileName) : Path := ofComponents (.root :: names.map (.normal ·.text))

def names (p : Path) : List FileName := p.components.filterMap Component.fileName?

end Path

end PropSchema
