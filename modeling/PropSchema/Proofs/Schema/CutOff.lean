import PropSchema.Component.Props
import PropSchema.Tree.Preorder
import Mathlib.Logic.Relation

/-!
Where the expansion of nested objects ends. The extraction is followed by one that also records
the type of each object; forgetting the types gives the props back. An object with members is shown
without them exactly when an enclosing object is written the same way or the limit of open
expansions is reached. Being written the same way is not being the same type.
-/

namespace PropSchema

inductive Trace
  | whole (definition : PropDefinition)
  | union (name : String) (required : Bool) (variants : List Trace)
  | object (name : String) (required : Bool) (type : TypeId) (members : List Trace)

namespace Trace

mutual

def erase : Trace → PropDefinition
  | .whole definition => definition
  | .union name required variants =>
    .group name TypeKind.union.label required (eraseAll variants)
  | .object name required _ members =>
    .group name TypeKind.object.label required (eraseAll members)

def eraseAll : List Trace → List PropDefinition
  | [] => []
  | trace :: rest => trace.erase :: eraseAll rest

end

/-- Inside the objects of a branch, innermost first, the trace shows an object of the given type
with these members while the second branch is open. -/
inductive Shows : Trace → List TypeId → List TypeId → TypeId → List Trace → Prop
  | here {name required branch type members} :
    Shows (.object name required type members) branch branch type members
  | variant {name required variants trace branch inside type members} :
    trace ∈ variants → Shows trace branch inside type members →
      Shows (.union name required variants) branch inside type members
  | member {name required outer traces trace branch inside type members} :
    trace ∈ traces → Shows trace (outer :: branch) inside type members →
      Shows (.object name required outer traces) branch inside type members

def isBare (ty : TypeId) : Trace → Bool
  | .object _ _ type [] => type == ty
  | _ => false

theorem shows_of_isBare {trace : Trace} {ty : TypeId} (h : trace.isBare ty = true)
    (branch : List TypeId) : trace.Shows branch branch ty [] := by
  revert h
  fun_cases isBare ty trace with
  | case1 name required type =>
    intro h
    rw [beq_iff_eq.1 h]
    exact .here
  | case2 => intro h; cases h

end Trace

namespace TypeTable

variable {t : TypeTable}

def traceByForm (t : TypeTable) (expand : TypeId → Option (List Trace))
    (nested : TypeId → Option Trace) (name : String) (required : Bool) (ty : TypeId) :
    Option Trace :=
  let declared := t.declared ty
  match t.kind declared with
  | .union =>
    match t.unionShape ty with
    | .boolean => some (.whole (.plain name "boolean" required))
    | .literals options =>
      some (.whole (.choice name TypeKind.enumLiteral.label required options))
    | .single inner => nested inner
    | .mixed [] => some (.whole (.plain name "unknown" required))
    | .mixed variants => (variants.mapM nested).map (.union name required)
  | .enumLiteral =>
    some (.whole (.choice name TypeKind.enumLiteral.label required [t.optionText declared]))
  | .object => (expand ty).map (.object name required ty)
  | _ => some (.whole (.plain name (Label.clean (t.display declared)) required))

def traceAt (t : TypeTable) (expand : TypeId → Option (List Trace)) (name : String)
    (required : Bool) : Nat → TypeId → Option Trace
  | 0, _ => none
  | nesting + 1, ty =>
    let shown := t.display (t.declared ty)
    if Label.isAtomic shown then some (.whole (.plain name (Label.clean shown) required))
    else t.traceByForm expand (t.traceAt expand name required nesting) name required ty

def tracesAt (t : TypeTable) : Nat → List TypeId → TypeId → Option (List Trace)
  | 0, _, _ => some []
  | room + 1, branch, ty =>
    if t.display ty ∈ branch.map t.display then some []
    else
      ((t.members ty).filter (·.declaration.isSome)).mapM fun m =>
        t.traceAt (t.tracesAt room (ty :: branch)) m.name (! m.optional) t.unionLevels m.site

def traces (t : TypeTable) (ty : TypeId) : Option (List Trace) := t.tracesAt Trail.limit [] ty

theorem mapM_map_erase {α : Type} {f : α → Option Trace} {g : α → Option PropDefinition}
    (h : ∀ a, (f a).map Trace.erase = g a) (l : List α) :
    (l.mapM f).map Trace.eraseAll = l.mapM g := by
  induction l with
  | nil => rfl
  | cons a l ih =>
    rw [List.mapM_cons, List.mapM_cons, ← h a, ← ih]
    cases f a with
    | none => rfl
    | some trace =>
      cases l.mapM f with
      | none => rfl
      | some rest => rfl

section Erase

variable {expand : TypeId → Option (List Trace)} {expand' : TypeId → Option (List PropDefinition)}
  {name : String} {required : Bool}

theorem erase_traceByForm {nested : TypeId → Option Trace}
    {nested' : TypeId → Option PropDefinition}
    (hexpand : ∀ ty, (expand ty).map Trace.eraseAll = expand' ty)
    (hnested : ∀ ty, (nested ty).map Trace.erase = nested' ty) (ty : TypeId) :
    (t.traceByForm expand nested name required ty).map Trace.erase =
      t.propByForm expand' nested' name required ty := by
  simp only [traceByForm, propByForm]
  cases t.kind (t.declared ty) with
  | union =>
    cases t.unionShape ty with
    | boolean => rfl
    | literals options => rfl
    | single inner => exact hnested inner
    | mixed variants =>
      cases variants with
      | nil => rfl
      | cons first rest =>
        simp only [← mapM_map_erase hnested, Option.map_eq_map, Option.map_map]
        rfl
  | object =>
    simp only [← hexpand, Option.map_eq_map, Option.map_map]
    rfl
  | _ => rfl

theorem erase_traceAt (hexpand : ∀ ty, (expand ty).map Trace.eraseAll = expand' ty)
    (nesting : Nat) (ty : TypeId) :
    (t.traceAt expand name required nesting ty).map Trace.erase =
      t.propAt expand' name required nesting ty := by
  induction nesting generalizing ty with
  | zero => rfl
  | succ nesting ih =>
    simp only [traceAt, propAt]
    split
    · rfl
    · exact erase_traceByForm hexpand ih ty

end Erase

theorem erase_tracesAt (room : Nat) (branch : List TypeId) (ty : TypeId) :
    (t.tracesAt room branch ty).map Trace.eraseAll =
      t.propsAt room (branch.map t.display) ty := by
  induction room generalizing branch ty with
  | zero => rfl
  | succ room ih =>
    simp only [tracesAt, propsAt, List.contains_iff_mem]
    split
    · rfl
    · exact mapM_map_erase (fun m => erase_traceAt (ih (ty :: branch)) _ _) _

theorem mem_mapM {α β : Type} {f : α → Option β} {l : List α} {result : List β} {b : β}
    (h : l.mapM f = some result) (hb : b ∈ result) : ∃ a ∈ l, f a = some b := by
  induction l generalizing result with
  | nil =>
    simp only [List.mapM_nil, Option.pure_def, Option.some.injEq] at h
    subst h
    cases hb
  | cons a l ih =>
    simp only [List.mapM_cons, Option.pure_def, Option.bind_eq_bind, Option.bind_eq_some_iff,
      Option.some.injEq] at h
    obtain ⟨first, hfirst, rest, hrest, rfl⟩ := h
    cases hb with
    | head => exact ⟨a, List.mem_cons_self, hfirst⟩
    | tail _ hb =>
      obtain ⟨a', ha', hf⟩ := ih hrest hb
      exact ⟨a', List.mem_cons_of_mem _ ha', hf⟩

section Shows

variable {expand : TypeId → Option (List Trace)} {name : String} {required : Bool}
  {branch inside : List TypeId} {type : TypeId} {members : List Trace} {trace : Trace}

theorem shows_traceAt {nesting : Nat} {ty : TypeId}
    (h : t.traceAt expand name required nesting ty = some trace)
    (hshows : trace.Shows branch inside type members) :
    ∃ outer traces, expand outer = some traces ∧
      (Trace.object name required outer traces).Shows branch inside type members := by
  induction nesting generalizing ty trace with
  | zero => cases h
  | succ nesting ih =>
    simp only [traceAt, traceByForm] at h
    split at h
    · cases h
      cases hshows
    split at h
    · split at h
      · cases h
        cases hshows
      · cases h
        cases hshows
      · exact ih h hshows
      · cases h
        cases hshows
      · obtain ⟨variants, hvariants, rfl⟩ := Option.map_eq_some_iff.1 h
        cases hshows with
        | variant hmem hshows =>
          obtain ⟨v, -, hv⟩ := mem_mapM hvariants hmem
          exact ih hv hshows
    · cases h
      cases hshows
    · obtain ⟨traces, htraces, rfl⟩ := Option.map_eq_some_iff.1 h
      exact ⟨_, traces, htraces, hshows⟩
    · cases h
      cases hshows

theorem shows_tracesAt {room : Nat} {root : TypeId} {traces : List Trace}
    (h : t.tracesAt room branch root = some traces) (hroom : room + branch.length = Trail.limit)
    (hmem : trace ∈ traces) (hshows : trace.Shows (root :: branch) inside type members) :
    t.tracesAt (Trail.limit - inside.length) inside type = some members := by
  induction room generalizing branch root traces trace with
  | zero =>
    cases h
    cases hmem
  | succ room ih =>
    have hroom' : room + (root :: branch).length = Trail.limit := by
      rw [List.length_cons, ← hroom]
      omega
    rw [tracesAt] at h
    split at h
    · cases h
      cases hmem
    · obtain ⟨m, -, hm⟩ := mem_mapM h hmem
      obtain ⟨outer, inner, houter, hshows⟩ := shows_traceAt hm hshows
      cases hshows with
      | here => rwa [← hroom', Nat.add_sub_cancel]
      | member hmem' hshows => exact ih houter hroom' hmem' hshows

end Shows

def Declares (t : TypeTable) (ty : TypeId) : Prop :=
  ∃ m ∈ t.members ty, m.declaration.isSome

theorem mapM_eq_nil {α β : Type} {f : α → Option β} {l : List α} (h : l.mapM f = some []) :
    l = [] := by
  cases l with
  | nil => rfl
  | cons a l => simp [List.mapM_cons, Option.bind_eq_some_iff] at h

theorem tracesAt_eq_nil_iff {inside : List TypeId} {type : TypeId} {members : List Trace}
    (h : t.tracesAt (Trail.limit - inside.length) inside type = some members)
    (hdecl : t.Declares type) :
    members = [] ↔
      (∃ e ∈ inside, t.display e = t.display type) ∨ Trail.limit ≤ inside.length := by
  cases hroom : Trail.limit - inside.length with
  | zero =>
    rw [hroom] at h
    cases h
    exact iff_of_true rfl (.inr (Nat.le_of_sub_eq_zero hroom))
  | succ room =>
    have hlimit : ¬ Trail.limit ≤ inside.length := by omega
    rw [hroom, tracesAt] at h
    rw [← List.mem_map, or_iff_left hlimit]
    split at h
    · next hshown =>
      cases h
      exact iff_of_true rfl hshown
    · next hshown =>
      refine iff_of_false ?_ hshown
      rintro rfl
      obtain ⟨m, hm, hsome⟩ := hdecl
      exact List.ne_nil_of_mem (List.mem_filter.2 ⟨hm, hsome⟩) (mapM_eq_nil h)

def ShowsInside (t : TypeTable) (root : TypeId) (branch : List TypeId) (ty : TypeId)
    (members : List Trace) : Prop :=
  ∃ traces, t.traces root = some traces ∧ ∃ trace ∈ traces, trace.Shows [root] branch ty members

theorem members_eq_nil_iff_written_alike (t : TypeTable) (root : TypeId) :
    (t.traces root).map Trace.eraseAll = t.props root ∧
      ∀ branch ty members, t.ShowsInside root branch ty members → t.Declares ty →
        (members = [] ↔
          (∃ e ∈ branch, t.display e = t.display ty) ∨ Trail.limit ≤ branch.length) := by
  refine ⟨erase_tracesAt Trail.limit [] root, ?_⟩
  intro branch ty members hshows hdecl
  obtain ⟨traces, htraces, trace, hmem, hshows⟩ := hshows
  exact tracesAt_eq_nil_iff (shows_tracesAt htraces rfl hmem hshows) hdecl

def LeadsTo (t : TypeTable) (a b : TypeId) : Prop := (t.alias? a).map (·.declared) = some b

def SameType (t : TypeTable) : TypeId → TypeId → Prop :=
  Relation.Join (Relation.ReflTransGen t.LeadsTo)

theorem eq_of_leadsTo {a b : TypeId} (ha : t.alias? a = none)
    (h : Relation.ReflTransGen t.LeadsTo a b) : a = b := by
  cases h.cases_head with
  | inl heq => exact heq
  | inr hstep =>
    obtain ⟨c, hac, -⟩ := hstep
    rw [LeadsTo, ha] at hac
    cases hac

def namesakeProgram : Program :=
  let card := Node.ofPreorder?
    ("import \x7b Props as Inner \x7d from './inner';\n" ++
      "interface Props \x7b inner: Inner \x7d\n" ++ "export default (p: Props) => null;\n")
    [⟨"program", true, "", ⟨0, 110⟩, 3⟩, ⟨"import_statement", true, "", ⟨0, 41⟩, 5⟩,
     ⟨"import", false, "", ⟨0, 6⟩, 0⟩, ⟨"import_clause", true, "", ⟨7, 25⟩, 1⟩,
     ⟨"named_imports", true, "", ⟨7, 25⟩, 3⟩, ⟨"\x7b", false, "", ⟨7, 8⟩, 0⟩,
     ⟨"import_specifier", true, "", ⟨9, 23⟩, 3⟩, ⟨"identifier", true, "name", ⟨9, 14⟩, 0⟩,
     ⟨"as", false, "", ⟨15, 17⟩, 0⟩, ⟨"identifier", true, "alias", ⟨18, 23⟩, 0⟩,
     ⟨"\x7d", false, "", ⟨24, 25⟩, 0⟩, ⟨"from", false, "", ⟨26, 30⟩, 0⟩,
     ⟨"string", true, "source", ⟨31, 40⟩, 3⟩, ⟨"'", false, "", ⟨31, 32⟩, 0⟩,
     ⟨"string_fragment", true, "", ⟨32, 39⟩, 0⟩, ⟨"'", false, "", ⟨39, 40⟩, 0⟩,
     ⟨";", false, "", ⟨40, 41⟩, 0⟩, ⟨"interface_declaration", true, "", ⟨42, 74⟩, 3⟩,
     ⟨"interface", false, "", ⟨42, 51⟩, 0⟩, ⟨"type_identifier", true, "name", ⟨52, 57⟩, 0⟩,
     ⟨"interface_body", true, "body", ⟨58, 74⟩, 3⟩, ⟨"\x7b", false, "", ⟨58, 59⟩, 0⟩,
     ⟨"property_signature", true, "", ⟨60, 72⟩, 2⟩,
     ⟨"property_identifier", true, "name", ⟨60, 65⟩, 0⟩,
     ⟨"type_annotation", true, "type", ⟨65, 72⟩, 2⟩, ⟨":", false, "", ⟨65, 66⟩, 0⟩,
     ⟨"type_identifier", true, "", ⟨67, 72⟩, 0⟩, ⟨"\x7d", false, "", ⟨73, 74⟩, 0⟩,
     ⟨"export_statement", true, "", ⟨75, 109⟩, 4⟩, ⟨"export", false, "", ⟨75, 81⟩, 0⟩,
     ⟨"default", false, "", ⟨82, 89⟩, 0⟩, ⟨"arrow_function", true, "value", ⟨90, 108⟩, 3⟩,
     ⟨"formal_parameters", true, "parameters", ⟨90, 100⟩, 3⟩, ⟨"(", false, "", ⟨90, 91⟩, 0⟩,
     ⟨"required_parameter", true, "", ⟨91, 99⟩, 2⟩, ⟨"identifier", true, "pattern", ⟨91, 92⟩, 0⟩,
     ⟨"type_annotation", true, "type", ⟨92, 99⟩, 2⟩, ⟨":", false, "", ⟨92, 93⟩, 0⟩,
     ⟨"type_identifier", true, "", ⟨94, 99⟩, 0⟩, ⟨")", false, "", ⟨99, 100⟩, 0⟩,
     ⟨"=>", false, "", ⟨101, 103⟩, 0⟩, ⟨"null", true, "body", ⟨104, 108⟩, 0⟩,
     ⟨";", false, "", ⟨108, 109⟩, 0⟩]
  let inner := Node.ofPreorder?
    "export interface Props \x7b id: string \x7d\n"
    [⟨"program", true, "", ⟨0, 38⟩, 1⟩, ⟨"export_statement", true, "", ⟨0, 37⟩, 2⟩,
     ⟨"export", false, "", ⟨0, 6⟩, 0⟩, ⟨"interface_declaration", true, "declaration", ⟨7, 37⟩, 3⟩,
     ⟨"interface", false, "", ⟨7, 16⟩, 0⟩, ⟨"type_identifier", true, "name", ⟨17, 22⟩, 0⟩,
     ⟨"interface_body", true, "body", ⟨23, 37⟩, 3⟩, ⟨"\x7b", false, "", ⟨23, 24⟩, 0⟩,
     ⟨"property_signature", true, "", ⟨25, 35⟩, 2⟩,
     ⟨"property_identifier", true, "name", ⟨25, 27⟩, 0⟩,
     ⟨"type_annotation", true, "type", ⟨27, 35⟩, 2⟩, ⟨":", false, "", ⟨27, 28⟩, 0⟩,
     ⟨"predefined_type", true, "", ⟨29, 35⟩, 1⟩, ⟨"string", false, "", ⟨29, 35⟩, 0⟩,
     ⟨"\x7d", false, "", ⟨36, 37⟩, 0⟩]
  .ofSources [⟨⟨"src/Card.tsx"⟩, card.getD .empty⟩, ⟨⟨"src/inner.ts"⟩, inner.getD .empty⟩]

def namesakeRun : Option TypeId × Bindings :=
  match namesakeProgram.defaultExport? 0 with
  | some d => Id.run ((namesakeProgram.propsType d).run {})
  | none => (none, {})

theorem members_eq_nil_of_namesake :
    ∃ root branch ty, namesakeRun.1 = some root ∧
      namesakeRun.2.table.ShowsInside root branch ty [] ∧ namesakeRun.2.table.Declares ty ∧
      (¬ ∃ e ∈ branch, namesakeRun.2.table.SameType e ty) ∧ branch.length < Trail.limit := by
  have hrun : namesakeRun.1 = some 0 ∧ namesakeRun.2.table.alias? 0 = none ∧
      namesakeRun.2.table.alias? 1 = none ∧
      (∃ traces ∈ namesakeRun.2.table.traces 0, ∃ trace ∈ traces, trace.isBare 1) ∧
      ∃ m ∈ namesakeRun.2.table.members 1, m.declaration.isSome := by
    decide +kernel
  obtain ⟨hroot, halias, halias', ⟨traces, htraces, trace, hmem, hbare⟩, hdecl⟩ := hrun
  refine ⟨0, [0], 1, hroot, ⟨traces, htraces, trace, hmem, Trace.shows_of_isBare hbare [0]⟩, hdecl,
    ?_, by decide⟩
  rintro ⟨e, he, c, hec, hc⟩
  obtain rfl : e = 0 := List.mem_singleton.1 he
  have hzero : 0 = 1 := (eq_of_leadsTo halias hec).trans (eq_of_leadsTo halias' hc).symm
  cases hzero

end TypeTable

end PropSchema
