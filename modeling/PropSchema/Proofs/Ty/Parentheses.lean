import PropSchema.Proofs.Text.Brackets
import PropSchema.Proofs.Ty.Label

/-!
Where parentheses stand in the text of a type. An operand is put in parentheses by its form, while
it needs them if its text has an operator outside brackets. Both agree for an element of an array
unless a union or an intersection is written in one part, or the operator stands in a name; an
optional element of a tuple has no parentheses whatever its text is.
-/

namespace PropSchema

open Text (Balanced exposed operand)

variable {text text' : TypeId → String}

namespace Signature

def names (s : Signature) : List String := s.params.map (·.name)

def types (s : Signature) : List TypeId := s.returns :: s.params.map (·.type)

end Signature

namespace Form

def word? : Form → Option String
  | .primitive p => some p.keyword
  | .stringLiteral value => some ("\"" ++ value ++ "\"")
  | .numberLiteral value => some value
  | .booleanLiteral value => some (if value then "true" else "false")
  | .object o => o.name
  | .enumeration name _ | .typeParameter name | .reference name _ => some name
  | .pending => some "any"
  | .union _ | .intersection _ | .array _ | .tuple _ | .function _ => none

def words : Form → List String
  | .object ⟨none, members, calls⟩ => members.map (·.name) ++ calls.flatMap (·.names)
  | .function signature => signature.names
  | form => form.word?.toList

def written : Form → List TypeId
  | .union parts | .intersection parts | .reference _ parts => parts
  | .array element => [element]
  | .tuple elements => elements.map (·.type)
  | .object ⟨none, members, calls⟩ => members.map (·.declared) ++ calls.flatMap (·.types)
  | .function signature => signature.types
  | _ => []

end Form

/-! ### The texts of the parts -/

theorem Parameter.balanced_display {p : Parameter} (hname : Balanced p.name)
    (htext : Balanced (text p.type)) : Balanced (p.display text) := by
  have hrest : Balanced (if p.rest then "..." else "") := .mark fun _ => rfl
  have hoptional : Balanced (if p.optional then "?" else "") := .mark fun _ => rfl
  exact (((hrest.append hname).append hoptional).append fun _ => rfl).append htext

theorem TupleElement.balanced_display {e : TupleElement} (htext : Balanced (text e.type)) :
    Balanced (e.display text) := by
  have hrest : Balanced (if e.rest then "..." else "") := .mark fun _ => rfl
  exact (hrest.append htext).append (.mark fun _ => rfl)

theorem Member.balanced_display {m : Member} (hname : Balanced m.name)
    (htext : Balanced (text m.declared)) : Balanced (m.display text) := by
  have hoptional : Balanced (if m.optional then "?" else "") := .mark fun _ => rfl
  exact (((hname.append hoptional).append fun _ => rfl).append htext).append fun _ => rfl

namespace TupleElement

variable {e : TupleElement}

def displayTight (text : TypeId → String) (e : TupleElement) : String :=
  e.display fun id => if e.optional then operand (text id) else text id

theorem displayTight_of_not_exposed (h : e.optional = true → exposed (text e.type) = false) :
    e.displayTight text = e.display text := by
  rw [displayTight, display, display]
  cases hoptional : e.optional with
  | false => rfl
  | true => rw [if_pos rfl, Text.operand_of_not_exposed (h hoptional)]

theorem length_displayTight (text : TypeId → String) (e : TupleElement) :
    (e.displayTight text).length =
      (e.display text).length + if e.optional && exposed (text e.type) then 2 else 0 := by
  simp only [displayTight, display, String.length_append]
  cases e.optional with
  | false => simp
  | true =>
    rw [if_pos rfl, Text.length_operand, Bool.true_and]
    omega

end TupleElement

namespace Signature

variable {s : Signature}

theorem balanced_displayParams (hnames : ∀ name ∈ s.names, Balanced name)
    (htext : ∀ x ∈ s.types, Balanced (text x)) : Balanced (s.displayParams text) := by
  refine Text.isPair_parens.balanced (.intercalate (fun _ => rfl) ?_)
  refine List.forall_mem_map.2 fun p hp => p.balanced_display ?_ ?_
  · exact hnames _ (List.mem_map_of_mem hp)
  · exact htext _ (List.mem_cons_of_mem _ (List.mem_map_of_mem hp))

theorem balanced_display (hparams : Balanced (s.displayParams text))
    (hreturns : Balanced (text s.returns)) : Balanced (s.display text) :=
  (hparams.append fun _ => rfl).append hreturns

theorem displayParams_congr (h : ∀ x ∈ s.types, text x = text' x) :
    s.displayParams text = s.displayParams text' := by
  rw [displayParams, displayParams]
  congr 3
  refine List.map_congr_left fun p hp => ?_
  rw [Parameter.display, h _ (List.mem_cons_of_mem _ (List.mem_map_of_mem hp))]
  rfl

theorem display_congr (h : ∀ x ∈ s.types, text x = text' x) : s.display text = s.display text' := by
  rw [display, displayParams_congr h, h _ List.mem_cons_self]
  rfl

end Signature

namespace ObjectType

variable {members : List Member} {calls : List Signature}

def inner (text : TypeId → String) (members : List Member) (calls : List Signature) : String :=
  let callText (c : Signature) := c.displayParams text ++ ": " ++ text c.returns ++ "; "
  if members = [] ∧ calls = [] then ""
  else " " ++ String.join (calls.map callText) ++ String.join (members.map (·.display text))

theorem exists_of_isBareCall (h : isBareCall ⟨none, members, calls⟩) :
    members = [] ∧ ∃ call, calls = [call] := by
  simpa [isBareCall, List.length_eq_one_iff] using h

theorem display_of_not_isBareCall (text : TypeId → String)
    (h : isBareCall ⟨none, members, calls⟩ = false) :
    display text ⟨none, members, calls⟩ = "\x7b" ++ inner text members calls ++ "\x7d" := by
  cases members with
  | cons m members => simp [display, inner, ← String.append_assoc]
  | nil =>
    cases calls with
    | nil => rfl
    | cons call calls =>
      cases calls with
      | nil => cases h
      | cons next calls => simp [display, inner, ← String.append_assoc]

section Balanced

variable (hwords : ∀ w ∈ (Form.object ⟨none, members, calls⟩).words, Balanced w)
  (htext : ∀ x ∈ (Form.object ⟨none, members, calls⟩).written, Balanced (text x))

include hwords htext

theorem balanced_call {c : Signature} (hc : c ∈ calls) :
    Balanced (c.displayParams text) ∧ Balanced (text c.returns) := by
  have htypes (x) (hx : x ∈ c.types) : Balanced (text x) :=
    htext x (List.mem_append_right _ (List.mem_flatMap_of_mem hc hx))
  refine ⟨c.balanced_displayParams (fun name hname => ?_) htypes, htypes _ List.mem_cons_self⟩
  exact hwords name (List.mem_append_right _ (List.mem_flatMap_of_mem hc hname))

theorem balanced_inner : Balanced (inner text members calls) := by
  refine .ite .empty (.append (.append (fun _ => rfl) (.join ?_)) (.join ?_))
  · refine List.forall_mem_map.2 fun c hc => ?_
    obtain ⟨hparams, hreturns⟩ := balanced_call hwords htext hc
    exact ((hparams.append fun _ => rfl).append hreturns).append fun _ => rfl
  · refine List.forall_mem_map.2 fun m hm => m.balanced_display ?_ ?_
    · exact hwords _ (List.mem_append_left _ (List.mem_map_of_mem hm))
    · exact htext _ (List.mem_append_left _ (List.mem_map_of_mem hm))

end Balanced

theorem inner_congr (hmembers : ∀ m ∈ members, text m.declared = text' m.declared)
    (hcalls : ∀ c ∈ calls, ∀ x ∈ c.types, text x = text' x) :
    inner text members calls = inner text' members calls := by
  have hcallTexts : (calls.map fun c => c.displayParams text ++ ": " ++ text c.returns ++ "; ") =
      calls.map fun c => c.displayParams text' ++ ": " ++ text' c.returns ++ "; " := by
    refine List.map_congr_left fun c hc => ?_
    rw [c.displayParams_congr (hcalls c hc), hcalls c hc _ List.mem_cons_self]
  have hmemberTexts : members.map (·.display text) = members.map (·.display text') := by
    refine List.map_congr_left fun m hm => ?_
    rw [Member.display, hmembers m hm, Member.display]
  rw [inner, inner, hcallTexts, hmemberTexts]

end ObjectType

namespace TypeTable

variable {t : TypeTable} {f : Form} {id : TypeId} {levels : Nat}

def displayPart (t : TypeTable) (text : TypeId → String) (tight : Bool) : Option TypeId → String
  | some id => t.displayOperand text tight id
  | none => "boolean"

theorem displayForm_union (t : TypeTable) (text : TypeId → String) (parts : List TypeId) :
    t.displayForm text (.union parts) =
      " | ".intercalate ((t.foldBooleans parts).map (t.displayPart text false)) := rfl

theorem displayForm_intersection (t : TypeTable) (text : TypeId → String) (parts : List TypeId) :
    t.displayForm text (.intersection parts) =
      " & ".intercalate ((parts.map some).map (t.displayPart text true)) := by
  rw [displayForm, List.map_map]
  rfl

theorem displayForm_reference (t : TypeTable) (text : TypeId → String) (name : String)
    {args : List TypeId} (h : args ≠ []) : t.displayForm text (.reference name args) =
      name ++ ("<" ++ ", ".intercalate (args.map text) ++ ">") := by
  cases args with
  | nil => exact absurd rfl h
  | cons arg args => simp only [displayForm, String.append_assoc]

theorem mem_of_mem_foldBooleans {parts : List TypeId} (h : some id ∈ t.foldBooleans parts) :
    id ∈ parts := by
  simp only [foldBooleans] at h
  split at h
  · simp only [List.mem_append, List.mem_map, List.mem_cons, List.mem_filter, Option.some.injEq,
      reduceCtorEq, false_or, exists_eq_right] at h
    obtain h | h := h
    · exact (List.takeWhile_sublist _).subset h
    · exact (List.dropWhile_sublist _).subset h.1
  · simpa using h

theorem balanced_displayOperand {tight : Bool} (h : Balanced (text id)) :
    Balanced (t.displayOperand text tight id) :=
  .ite (Text.isPair_parens.balanced h) h

theorem balanced_displayPart {tight : Bool} {parts : List (Option TypeId)}
    (h : ∀ x, some x ∈ parts → Balanced (text x)) :
    ∀ s ∈ parts.map (t.displayPart text tight), Balanced s := by
  refine List.forall_mem_map.2 fun part hpart => ?_
  cases part with
  | none => exact show Balanced "boolean" from fun _ => rfl
  | some x => exact balanced_displayOperand (h x hpart)

theorem balanced_displayForm (hwords : ∀ w ∈ f.words, Balanced w)
    (htext : ∀ x ∈ f.written, Balanced (text x)) : Balanced (t.displayForm text f) := by
  cases f with
  | union parts =>
    rw [displayForm_union]
    refine .intercalate (fun _ => rfl) (balanced_displayPart fun x hx => ?_)
    exact htext x (mem_of_mem_foldBooleans hx)
  | intersection parts =>
    rw [displayForm_intersection]
    refine .intercalate (fun _ => rfl) (balanced_displayPart fun x hx => ?_)
    exact htext x (by simpa [Form.written] using hx)
  | array element =>
    exact (balanced_displayOperand (htext element List.mem_cons_self)).append fun _ => rfl
  | tuple elements =>
    refine Text.isPair_brackets.balanced (.intercalate (fun _ => rfl) ?_)
    exact List.forall_mem_map.2 fun e he => e.balanced_display (htext _ (List.mem_map_of_mem he))
  | object o =>
    obtain ⟨_ | name, members, calls⟩ := o
    · cases hbare : ObjectType.isBareCall ⟨none, members, calls⟩ with
      | true =>
        obtain ⟨rfl, call, rfl⟩ := ObjectType.exists_of_isBareCall hbare
        obtain ⟨hparams, hreturns⟩ := ObjectType.balanced_call hwords htext List.mem_cons_self
        exact call.balanced_display hparams hreturns
      | false =>
        rw [displayForm, ObjectType.display_of_not_isBareCall text hbare]
        exact Text.isPair_braces.balanced (ObjectType.balanced_inner hwords htext)
    · exact hwords name List.mem_cons_self
  | function signature =>
    exact signature.balanced_display (signature.balanced_displayParams hwords htext)
      (htext _ List.mem_cons_self)
  | reference name args =>
    have hname : Balanced name := hwords name List.mem_cons_self
    by_cases hargs : args = []
    · rw [hargs]
      exact hname
    · rw [displayForm_reference t text name hargs]
      refine hname.append (Text.isPair_angles.balanced (.intercalate (fun _ => rfl) ?_))
      exact List.forall_mem_map.2 htext
  | _ => exact hwords _ List.mem_cons_self

theorem displayPart_congr {tight : Bool} {parts : List (Option TypeId)}
    (h : ∀ x, some x ∈ parts → text x = text' x) :
    parts.map (t.displayPart text tight) = parts.map (t.displayPart text' tight) := by
  refine List.map_congr_left fun part hpart => ?_
  cases part with
  | none => rfl
  | some x => rw [displayPart, displayOperand, h x hpart, displayPart, displayOperand]

theorem displayForm_congr (h : ∀ x ∈ f.written, text x = text' x) :
    t.displayForm text f = t.displayForm text' f := by
  cases f with
  | union parts =>
    rw [displayForm_union, displayForm_union]
    exact congrArg _ (displayPart_congr fun x hx => h x (mem_of_mem_foldBooleans hx))
  | intersection parts =>
    rw [displayForm_intersection, displayForm_intersection]
    exact congrArg _ (displayPart_congr fun x hx => h x (by simpa [Form.written] using hx))
  | array element =>
    rw [displayForm, displayOperand, h element List.mem_cons_self]
    rfl
  | tuple elements =>
    rw [displayForm, displayForm]
    congr 3
    refine List.map_congr_left fun e he => ?_
    rw [TupleElement.display, h _ (List.mem_map_of_mem he), TupleElement.display]
  | object o =>
    obtain ⟨_ | name, members, calls⟩ := o
    · have hcalls (c) (hc : c ∈ calls) : ∀ x ∈ c.types, text x = text' x :=
        fun x hx => h x (List.mem_append_right _ (List.mem_flatMap_of_mem hc hx))
      cases hbare : ObjectType.isBareCall ⟨none, members, calls⟩ with
      | true =>
        obtain ⟨rfl, call, rfl⟩ := ObjectType.exists_of_isBareCall hbare
        exact call.display_congr (hcalls call List.mem_cons_self)
      | false =>
        rw [displayForm, displayForm, ObjectType.display_of_not_isBareCall text hbare,
          ObjectType.display_of_not_isBareCall text' hbare, ObjectType.inner_congr ?_ hcalls]
        exact fun m hm => h _ (List.mem_append_left _ (List.mem_map_of_mem hm))
    · rfl
  | function signature => exact signature.display_congr h
  | reference name args =>
    by_cases hargs : args = []
    · rw [hargs]
      rfl
    · have htexts : args.map text = args.map text' := List.map_congr_left h
      rw [displayForm_reference t text name hargs, displayForm_reference t text' name hargs, htexts]
  | _ => rfl

/-! ### Operators outside brackets -/

def operandLoose (t : TypeTable) (loose : TypeId → Bool) (tight : Bool) (id : TypeId) : Bool :=
  ! t.needsParens tight id && loose id

def partsLoose (t : TypeTable) (loose : TypeId → Bool) (tight : Bool) : List (Option TypeId) → Bool
  | [] | [none] => false
  | [some id] => t.operandLoose loose tight id
  | _ => true

def formLoose (t : TypeTable) (loose : TypeId → Bool) : Form → Bool
  | .union parts => t.partsLoose loose false (t.foldBooleans parts)
  | .intersection parts => t.partsLoose loose true (parts.map some)
  | .array element => t.operandLoose loose true element
  | .object o => o.isBareCall || o.name.any exposed
  | .function _ => true
  | form => form.word?.any exposed

def looseAt (t : TypeTable) : Nat → TypeId → Bool
  | levels, id =>
    match t.alias? id, levels with
    | some a, _ => exposed a.name
    | none, 0 => false
    | none, levels + 1 => t.formLoose (t.looseAt levels) (t.form id)

/-- The type is written out within so many levels, and the words of its text are all `ok`. -/
inductive WritesOut (t : TypeTable) (ok : String → Prop) : Nat → TypeId → Prop
  | named {levels : Nat} {id : TypeId} {a : Alias} (alias_eq : t.alias? id = some a)
    (name : ok a.name) : WritesOut t ok levels id
  | form {levels : Nat} {id : TypeId} (alias_eq : t.alias? id = none)
    (words : ∀ w ∈ (t.form id).words, ok w)
    (written : ∀ x ∈ (t.form id).written, WritesOut t ok levels x) : WritesOut t ok (levels + 1) id

variable {loose : TypeId → Bool}

theorem exposed_displayOperand {tight : Bool} (htext : Balanced (text id))
    (hloose : exposed (text id) = loose id) :
    exposed (t.displayOperand text tight id) = t.operandLoose loose tight id := by
  rw [displayOperand, operandLoose]
  cases t.needsParens tight id with
  | true => exact Text.isPair_parens.not_exposed_enclosed htext
  | false => simpa using hloose

theorem exposed_parts {sep : String} (hsep : sep ∈ Text.operators) {tight : Bool}
    {parts : List (Option TypeId)} (htext : ∀ x, some x ∈ parts → Balanced (text x))
    (hloose : ∀ x, some x ∈ parts → exposed (text x) = loose x) :
    exposed (sep.intercalate (parts.map (t.displayPart text tight))) =
      t.partsLoose loose tight parts := by
  cases parts with
  | nil => rfl
  | cons first parts =>
    by_cases hparts : parts = []
    · subst hparts
      rw [List.map_singleton, String.intercalate_singleton]
      cases first with
      | none => exact show exposed "boolean" = false by decide
      | some x =>
        exact exposed_displayOperand (htext x List.mem_cons_self) (hloose x List.mem_cons_self)
    · have hfirst : Balanced (t.displayPart text tight first) :=
        balanced_displayPart htext _ List.mem_cons_self
      rw [List.map_cons, String.intercalate_cons_of_ne_nil (by simpa using hparts),
        Text.exposed_of_operator hsep hfirst]
      obtain ⟨second, rest, rfl⟩ := List.exists_cons_of_ne_nil hparts
      cases first <;> rfl

theorem exposed_displayForm (hwords : ∀ w ∈ f.words, Balanced w)
    (htext : ∀ x ∈ f.written, Balanced (text x))
    (hloose : ∀ x ∈ f.written, exposed (text x) = loose x) :
    exposed (t.displayForm text f) = t.formLoose loose f := by
  cases f with
  | union parts =>
    rw [displayForm_union]
    exact exposed_parts (by decide) (fun x hx => htext x (mem_of_mem_foldBooleans hx))
      fun x hx => hloose x (mem_of_mem_foldBooleans hx)
  | intersection parts =>
    have hmem (x) (hx : some x ∈ parts.map some) : x ∈ parts := by simpa using hx
    rw [displayForm_intersection]
    exact exposed_parts (by decide) (fun x hx => htext x (hmem x hx))
      fun x hx => hloose x (hmem x hx)
  | array element =>
    have helement := htext element List.mem_cons_self
    have hoperand : Balanced (t.displayOperand text true element) :=
      balanced_displayOperand helement
    have hbrackets := Text.isPair_brackets.exposed_append hoperand .empty
    exact hbrackets.trans (exposed_displayOperand helement (hloose element List.mem_cons_self))
  | tuple elements =>
    refine Text.isPair_brackets.not_exposed_enclosed (.intercalate (fun _ => rfl) ?_)
    exact List.forall_mem_map.2 fun e he => e.balanced_display (htext _ (List.mem_map_of_mem he))
  | object o =>
    obtain ⟨_ | name, members, calls⟩ := o
    · rw [formLoose, Option.any_none, Bool.or_false]
      cases hbare : ObjectType.isBareCall ⟨none, members, calls⟩ with
      | true =>
        obtain ⟨rfl, call, rfl⟩ := ObjectType.exists_of_isBareCall hbare
        obtain ⟨hparams, -⟩ := ObjectType.balanced_call hwords htext List.mem_cons_self
        exact Text.exposed_of_operator (by decide) hparams _
      | false =>
        rw [displayForm, ObjectType.display_of_not_isBareCall text hbare]
        exact Text.isPair_braces.not_exposed_enclosed (ObjectType.balanced_inner hwords htext)
    · rfl
  | function signature =>
    exact Text.exposed_of_operator (by decide) (signature.balanced_displayParams hwords htext) _
  | reference name args =>
    by_cases hargs : args = []
    · rw [hargs]
      rfl
    · have hinner : Balanced (", ".intercalate (args.map text)) :=
        .intercalate (fun _ => rfl) (List.forall_mem_map.2 htext)
      rw [displayForm_reference t text name hargs]
      exact Text.isPair_angles.exposed_append (hwords name List.mem_cons_self) hinner
  | _ => rfl

theorem displayAt_of_alias {a : Alias} (h : t.alias? id = some a) (levels : Nat) :
    t.displayAt levels id = a.name := by
  rw [displayAt.eq_def]
  simp only [h]

theorem looseAt_of_alias {a : Alias} (h : t.alias? id = some a) (levels : Nat) :
    t.looseAt levels id = exposed a.name := by
  rw [looseAt.eq_def]
  simp only [h]

theorem looseAt_of_alias_none (h : t.alias? id = none) (levels : Nat) :
    t.looseAt (levels + 1) id = t.formLoose (t.looseAt levels) (t.form id) := by
  rw [looseAt.eq_def]
  simp only [h]

namespace WritesOut

variable {ok : String → Prop}

theorem displayAt_succ (h : t.WritesOut ok levels id) :
    t.displayAt (levels + 1) id = t.displayAt levels id := by
  induction h with
  | named halias _ => rw [displayAt_of_alias halias, displayAt_of_alias halias]
  | form halias _ _ ih =>
    rw [displayAt_of_alias_none halias, displayAt_of_alias_none halias]
    exact displayForm_congr ih

theorem display_eq (h : t.WritesOut ok (displayLevels - 1) id) :
    t.display id = t.displayAt (displayLevels - 1) id :=
  h.displayAt_succ

theorem balanced_displayAt (h : t.WritesOut Balanced levels id) :
    Balanced (t.displayAt levels id) := by
  induction h with
  | named halias hname =>
    rw [displayAt_of_alias halias]
    exact hname
  | form halias hwords _ ih =>
    rw [displayAt_of_alias_none halias]
    exact balanced_displayForm hwords ih

/-- Where a type is written out in balanced words, its structure tells whether its text has an
operator outside brackets. -/
theorem exposed_displayAt (h : t.WritesOut Balanced levels id) :
    exposed (t.displayAt levels id) = t.looseAt levels id := by
  induction h with
  | named halias _ => rw [displayAt_of_alias halias, looseAt_of_alias halias]
  | form halias hwords hwritten ih =>
    rw [displayAt_of_alias_none halias, looseAt_of_alias_none halias]
    exact exposed_displayForm hwords (fun x hx => (hwritten x hx).balanced_displayAt) ih

end WritesOut

/-! ### Arrays and optional elements of tuples -/

def isSingle (t : TypeTable) (id : TypeId) : Bool :=
  (t.alias? id).isNone &&
    match t.form id with
    | .union parts => (t.foldBooleans parts).length ≤ 1
    | .intersection parts => parts.length ≤ 1
    | _ => false

def formWord? (t : TypeTable) (word : TypeId → Option String) : Form → Option String
  | .array element => if t.needsParens true element then none else word element
  | form => form.word?

/-- The word that stands outside brackets in the text of a type without operators of its own. -/
def wordAt? (t : TypeTable) : Nat → TypeId → Option String
  | levels, id =>
    match t.alias? id, levels with
    | some a, _ => some a.name
    | none, 0 => none
    | none, levels + 1 => t.formWord? (t.wordAt? levels) (t.form id)

theorem wordAt?_of_alias {a : Alias} (h : t.alias? id = some a) (levels : Nat) :
    t.wordAt? levels id = some a.name := by
  rw [wordAt?.eq_def]
  simp only [h]

theorem wordAt?_of_alias_none (h : t.alias? id = none) (levels : Nat) :
    t.wordAt? (levels + 1) id = t.formWord? (t.wordAt? levels) (t.form id) := by
  rw [wordAt?.eq_def]
  simp only [h]

theorem looseAt_of_not_needsParens (h : t.needsParens true id = false) (levels : Nat) :
    t.looseAt levels id = (t.wordAt? levels id).any exposed := by
  induction levels generalizing id with
  | zero =>
    cases halias : t.alias? id with
    | some a => rw [looseAt_of_alias halias, wordAt?_of_alias halias, Option.any_some]
    | none =>
      rw [looseAt.eq_def, wordAt?.eq_def]
      simp only [halias, Option.any_none]
  | succ levels ih =>
    cases halias : t.alias? id with
    | some a => rw [looseAt_of_alias halias, wordAt?_of_alias halias, Option.any_some]
    | none =>
      rw [needsParens, halias, Option.isNone_none, Bool.true_and] at h
      rw [looseAt_of_alias_none halias, wordAt?_of_alias_none halias]
      cases hform : t.form id with
      | array element =>
        rw [formLoose, operandLoose, formWord?]
        cases helement : t.needsParens true element with
        | true => rfl
        | false => simpa using ih helement
      | object o =>
        rw [hform] at h
        rw [formLoose, show o.isBareCall = false from h]
        rfl
      | union parts => simp [hform] at h
      | intersection parts => simp [hform] at h
      | function signature => simp [hform] at h
      | _ => rfl

theorem wordAt?_of_needsParens (h : t.needsParens true id = true) (levels : Nat) :
    t.wordAt? (levels + 1) id = none := by
  rw [needsParens, Bool.and_eq_true, Option.isNone_iff_eq_none] at h
  obtain ⟨halias, hform⟩ := h
  rw [wordAt?_of_alias_none halias]
  cases hf : t.form id with
  | object o =>
    rw [hf] at hform
    simp_all [ObjectType.isBareCall, formWord?, Form.word?]
  | union parts => rfl
  | intersection parts => rfl
  | function signature => rfl
  | _ => simp [hf] at hform

theorem needsParens_of_isSingle (h : t.isSingle id = true) : t.needsParens true id = true := by
  rw [isSingle, Bool.and_eq_true] at h
  obtain ⟨halias, hform⟩ := h
  rw [needsParens, Bool.and_eq_true]
  refine ⟨halias, ?_⟩
  cases hf : t.form id <;> simp_all

theorem length_le_one_of_partsLoose {tight : Bool} {parts : List (Option TypeId)}
    (h : t.partsLoose loose tight parts = false) : parts.length ≤ 1 := by
  fun_cases partsLoose t loose tight parts with
  | case1 => exact Nat.zero_le 1
  | case2 => exact Nat.le_refl 1
  | case3 => exact Nat.le_refl 1
  | case4 => simp_all [partsLoose]

theorem isSingle_of_not_looseAt (h : t.needsParens true id = true)
    (hloose : t.looseAt (levels + 1) id = false) : t.isSingle id = true := by
  rw [needsParens, Bool.and_eq_true, Option.isNone_iff_eq_none] at h
  obtain ⟨halias, hform⟩ := h
  rw [looseAt_of_alias_none halias] at hloose
  rw [isSingle, halias, Option.isNone_none, Bool.true_and]
  cases hf : t.form id with
  | union parts =>
    rw [hf, formLoose] at hloose
    exact decide_eq_true (length_le_one_of_partsLoose hloose)
  | intersection parts =>
    rw [hf, formLoose] at hloose
    have hlength := length_le_one_of_partsLoose hloose
    rw [List.length_map] at hlength
    exact decide_eq_true hlength
  | object o => simp_all [formLoose]
  | function signature => simp [hf, formLoose] at hloose
  | _ => simp [hf] at hform

/-- Parentheses stand where the text needs them, but around a single part, and where a word has an
operator. -/
theorem needsParens_eq_looseAt_iff :
    t.needsParens true id = t.looseAt (levels + 1) id ↔
      ¬ (t.isSingle id = true ∧ t.looseAt (levels + 1) id = false) ∧
        ∀ w, t.wordAt? (levels + 1) id = some w → exposed w = false := by
  cases hparens : t.needsParens true id with
  | true =>
    rw [wordAt?_of_needsParens hparens]
    constructor
    · intro hloose
      simp [← hloose]
    · rintro ⟨hsingle, -⟩
      cases hloose : t.looseAt (levels + 1) id with
      | true => rfl
      | false => exact absurd ⟨isSingle_of_not_looseAt hparens hloose, hloose⟩ hsingle
  | false =>
    have hsingle : t.isSingle id ≠ true := by
      intro h
      rw [needsParens_of_isSingle h] at hparens
      cases hparens
    rw [looseAt_of_not_needsParens hparens]
    cases t.wordAt? (levels + 1) id with
    | none => simp [hsingle]
    | some w => simp [hsingle, eq_comm (a := false)]

section Written

variable {ok : String → Prop}

theorem display_array {element : TypeId} (halias : t.alias? id = none)
    (hform : t.form id = .array element) (h : t.WritesOut ok (displayLevels - 1) element) :
    t.display id = operand (t.display element) ++ "[]" ↔
      t.needsParens true element = exposed (t.display element) := by
  rw [display_of_alias_none halias, hform, displayForm, displayOperand, String.append_left_inj,
    operand, ← h.display_eq, Text.ite_parens_inj]

theorem display_tuple {elements : List TupleElement} (halias : t.alias? id = none)
    (hform : t.form id = .tuple elements)
    (h : ∀ e ∈ elements, t.WritesOut ok (displayLevels - 1) e.type) :
    t.display id = "[" ++ ", ".intercalate (elements.map (·.displayTight t.display)) ++ "]" ↔
      ∀ e ∈ elements, e.optional = true → exposed (t.display e.type) = false := by
  have htexts : elements.map (·.display (t.displayAt (displayLevels - 1))) =
      elements.map (·.display t.display) := by
    refine List.map_congr_left fun e he => ?_
    rw [TupleElement.display, ← (h e he).display_eq, TupleElement.display]
  rw [display_of_alias_none halias, hform, displayForm, htexts, String.append_left_inj,
    String.append_right_inj]
  constructor
  · intro heq e he hoptional
    -- one element that lacks its parentheses makes the whole text shorter
    by_contra hexposed
    rw [Bool.not_eq_false] at hexposed
    refine absurd (congrArg String.length heq) (Nat.ne_of_lt ?_)
    refine Text.length_intercalate_lt (fun x _ => ?_) ⟨e, he, ?_⟩
    · exact Nat.le.intro (x.length_displayTight t.display).symm
    · simp [TupleElement.length_displayTight, hoptional, hexposed]
  · intro hexposed
    congr 1
    exact List.map_congr_left fun e he => (e.displayTight_of_not_exposed (hexposed e he)).symm

end Written

theorem isBooleanLiteral_of_isSingle {parts : List TypeId} (hform : t.form id = .union parts)
    (htwo : 2 ≤ parts.length) (h : t.isSingle id = true) :
    ∀ part ∈ parts, (t.form part).isBooleanLiteral = true := by
  intro part hpart
  by_contra hother
  have hlength := two_le_length_foldBooleans (t := t) htwo ⟨part, hpart, hother⟩
  rw [isSingle, hform, Bool.and_eq_true, decide_eq_true_eq] at h
  omega

/-- Within the levels that are written, an array is written as precedence asks exactly if its
element is put in parentheses where its text has an operator outside brackets, and a tuple exactly
if no optional element has one. Where words close what they open, such an operator is one of the
structure. Then only two kinds of elements have the wrong parentheses: unions and intersections in
one part, such as `boolean`, and types with an operator in a name. -/
theorem display_parenthesized (t : TypeTable) :
    (∀ id element, t.alias? id = none → t.form id = .array element →
      t.WritesOut (fun _ => True) (displayLevels - 1) element →
      (t.display id = operand (t.display element) ++ "[]" ↔
        t.needsParens true element = exposed (t.display element))) ∧
    (∀ id elements, t.alias? id = none → t.form id = .tuple elements →
      (∀ e ∈ elements, t.WritesOut (fun _ => True) (displayLevels - 1) e.type) →
      (t.display id = "[" ++ ", ".intercalate (elements.map (·.displayTight t.display)) ++ "]" ↔
        ∀ e ∈ elements, e.optional = true → exposed (t.display e.type) = false)) ∧
    (∀ id, t.WritesOut Balanced (displayLevels - 1) id →
      exposed (t.display id) = t.looseAt (displayLevels - 1) id ∧
      (t.needsParens true id = exposed (t.display id) ↔
        ¬ (t.isSingle id = true ∧ t.looseAt (displayLevels - 1) id = false) ∧
          ∀ w, t.wordAt? (displayLevels - 1) id = some w → exposed w = false)) ∧
    ∀ id parts, t.form id = .union parts → 2 ≤ parts.length → t.isSingle id = true →
      ∀ part ∈ parts, (t.form part).isBooleanLiteral = true := by
  refine ⟨?_, ?_, ?_, ?_⟩
  · exact fun id element halias hform => display_array halias hform
  · exact fun id elements halias hform => display_tuple halias hform
  · intro id h
    rw [h.display_eq, h.exposed_displayAt]
    exact ⟨rfl, needsParens_eq_looseAt_iff⟩
  · exact fun id parts hform htwo => isBooleanLiteral_of_isSingle hform htwo

def cells : TypeTable where
  entries := #[⟨.booleanLiteral false, none⟩, ⟨.booleanLiteral true, none⟩, ⟨.union [0, 1], none⟩,
    ⟨.array 2, none⟩, ⟨.primitive .string, none⟩, ⟨.primitive .number, none⟩,
    ⟨.union [4, 5], none⟩, ⟨.tuple [⟨6, true, false⟩], none⟩, ⟨.array 6, none⟩]

theorem writesOut_cells {ok : String → Prop} (hstring : ok "string") (hnumber : ok "number") :
    cells.WritesOut ok (displayLevels - 1) 6 := by
  have hleaf (x) (hx : x ∈ [4, 5]) : cells.WritesOut ok (displayLevels - 2) x := by
    obtain rfl | rfl : x = 4 ∨ x = 5 := by simpa using hx
    · exact .form rfl (List.forall_mem_singleton.2 hstring) fun x hx => absurd hx List.not_mem_nil
    · exact .form rfl (List.forall_mem_singleton.2 hnumber) fun x hx => absurd hx List.not_mem_nil
  exact .form rfl (fun w hw => absurd hw List.not_mem_nil) hleaf

theorem display_parenthesized_cells :
    cells.display 8 = operand (cells.display 6) ++ "[]" ∧ exposed (cells.display 6) = true := by
  obtain ⟨harray, -, hstructure, -⟩ := display_parenthesized cells
  obtain ⟨hexposed, hparens⟩ := hstructure 6 (writesOut_cells (by decide) (by decide))
  have hloose : cells.looseAt (displayLevels - 1) 6 = true := looseAt_of_alias_none rfl 23
  refine ⟨(harray 8 6 rfl rfl (writesOut_cells trivial trivial)).2 (hparens.2 ⟨by decide, ?_⟩), ?_⟩
  · rw [show cells.wordAt? (displayLevels - 1) 6 = _ from wordAt?_of_alias_none rfl 23]
    exact fun w hw => by cases hw
  · rw [hexposed, hloose]

/-- The element of the array needs no parentheses and has them; that of the tuple has none where it
needs them. -/
theorem display_cells_misplaced :
    cells.display 2 = "boolean" ∧ cells.display 3 = "(boolean)[]" ∧
      operand "boolean" ++ "[]" = "boolean[]" ∧
      cells.display 6 = "string | number" ∧ cells.display 7 = "[string | number?]" ∧
      operand "string | number" ++ "?" = "(string | number)?" := by
  -- the number of levels stays a variable, so that no more of them are opened than are needed
  have hdisplay (levels : Nat) : cells.displayAt (levels + 3) 2 = "boolean" ∧
      cells.displayAt (levels + 3) 3 = "(boolean)[]" ∧
      cells.displayAt (levels + 3) 6 = "string | number" ∧
      cells.displayAt (levels + 3) 7 = "[string | number?]" := ⟨rfl, rfl, rfl, rfl⟩
  obtain ⟨hboolean, harray, hunion, htuple⟩ := hdisplay 22
  exact ⟨hboolean, harray, by decide, hunion, htuple, by decide⟩

end TypeTable

end PropSchema
