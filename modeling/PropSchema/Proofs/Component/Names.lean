import PropSchema.Proofs.Binding.Origins
import PropSchema.Proofs.Component.Requests
import PropSchema.Proofs.Schema.SharedTrail
import PropSchema.Proofs.Tree.Lines

namespace PropSchema

namespace PropDefinition

inductive ObjectLevel (props : List PropDefinition) : List PropDefinition → Prop
  | top : ObjectLevel props props
  | inside {p n : PropDefinition} {children : List PropDefinition} : p ∈ props → n.IsNode p →
    n.type = "object" → n.children = some children → ObjectLevel props children

variable {named : List String → Prop} {name type : String} {required : Bool}
  {children : List PropDefinition}

def LevelsNamed (named : List String → Prop) (p : PropDefinition) : Prop :=
  ∀ n : PropDefinition, n.IsNode p → n.type = "object" → ∀ children, n.children = some children →
    named (children.map (·.name))

theorem LevelsNamed.of_children {p : PropDefinition}
    (h : p.type = "object" → ∀ children, p.children = some children → named (children.map (·.name)))
    (hc : ∀ children, p.children = some children → ∀ c ∈ children, c.LevelsNamed named) :
    p.LevelsNamed named := by
  intro n hn
  cases hn with
  | self => exact h
  | child hchildren hmem hn => exact hc _ hchildren _ hmem n hn

theorem LevelsNamed.of_no_children {p : PropDefinition} (h : p.children = none) :
    p.LevelsNamed named := by
  refine .of_children (fun _ children hchildren => ?_) fun children hchildren => ?_ <;>
  · rw [h] at hchildren
    cases hchildren

theorem levelsNamed_object (h : named (children.map (·.name)))
    (hc : ∀ c ∈ children, c.LevelsNamed named) :
    (group name TypeKind.object.label required children).LevelsNamed named := by
  refine .of_children ?_ ?_
  · rintro - children ⟨⟩
    exact h
  · rintro children ⟨⟩
    exact hc

theorem levelsNamed_union (hc : ∀ c ∈ children, c.LevelsNamed named) :
    (group name TypeKind.union.label required children).LevelsNamed named := by
  refine .of_children (fun hobject => ?_) ?_
  · have hne : TypeKind.union.label ≠ "object" := by decide
    exact absurd hobject hne
  · rintro children ⟨⟩
    exact hc

end PropDefinition

namespace TypeTable

open PropDefinition

variable {t : TypeTable} {named : List String → Prop}

theorem levelsNamed_propAt {expand : TypeId → Option (List PropDefinition)} {name : String}
    {required : Bool}
    (hexpand : ∀ ty props, expand ty = some props →
      named (props.map (·.name)) ∧ ∀ p ∈ props, p.LevelsNamed named)
    {nesting : Nat} {ty : TypeId} {p : PropDefinition}
    (h : t.propAt expand name required nesting ty = some p) : p.LevelsNamed named := by
  induction nesting generalizing ty p with
  | zero => cases h
  | succ nesting ih =>
    simp only [propAt, propByForm] at h
    split at h
    · cases h
      exact .of_no_children rfl
    split at h
    · split at h
      · cases h
        exact .of_no_children rfl
      · cases h
        exact .of_no_children rfl
      · exact ih h
      · cases h
        exact .of_no_children rfl
      · obtain ⟨children, hchildren, rfl⟩ := Option.map_eq_some_iff.1 h
        refine levelsNamed_union fun c hc => ?_
        obtain ⟨v, -, hv⟩ := mem_mapM hchildren hc
        exact ih hv
    · cases h
      exact .of_no_children rfl
    · obtain ⟨children, hchildren, rfl⟩ := Option.map_eq_some_iff.1 h
      obtain ⟨hnames, hlevels⟩ := hexpand ty children hchildren
      exact levelsNamed_object hnames hlevels
    · cases h
      exact .of_no_children rfl

theorem map_name_of_mapM {room : Nat} {trail : Trail} {ms : List Member}
    {props : List PropDefinition}
    (h : (ms.mapM fun m =>
      t.propAt (t.propsAt room trail) m.name (! m.optional) t.unionLevels m.site) = some props) :
    props.map (·.name) = ms.map (·.name) := by
  have hall := mapM_eq_some_iff.1 h
  clear h
  induction hall with
  | nil => rfl
  | cons hp _ ih =>
    have hname := (wellShaped_propAt (fun _ _ => wellShaped_propsAt) hp).2.1
    rw [List.map_cons, List.map_cons, hname, ih]

theorem levelsNamed_propsAt (hnil : named [])
    (hmembers : ∀ ty, named (((t.members ty).filter (·.declaration.isSome)).map (·.name)))
    {room : Nat} {trail : Trail} {ty : TypeId} {props : List PropDefinition}
    (h : t.propsAt room trail ty = some props) :
    named (props.map (·.name)) ∧ ∀ p ∈ props, p.LevelsNamed named := by
  induction room generalizing trail ty props with
  | zero =>
    cases h
    exact ⟨hnil, List.forall_mem_nil _⟩
  | succ room ih =>
    rw [propsAt] at h
    split at h
    · cases h
      exact ⟨hnil, List.forall_mem_nil _⟩
    · refine ⟨?_, fun p hp => ?_⟩
      · rw [map_name_of_mapM h]
        exact hmembers ty
      · obtain ⟨m, -, hm⟩ := mem_mapM h hp
        exact levelsNamed_propAt (fun _ _ => ih) hm

end TypeTable

namespace Program

variable {P : Program}

def HasBody (P : Program) (body : Node) : Prop :=
  ∃ file n, P.Has ⟨file, n⟩ ∧ (n.kind = .objectType ∧ body = n ∨
    n.kind = .interfaceDeclaration ∧ n.child? .body = some body)

/-- No name repeats, or some body repeats it as often. -/
def BodyNamed (P : Program) (names : List String) : Prop :=
  ∀ name, 1 < names.count name →
    ∃ body, P.HasBody body ∧ names.count name ≤ body.memberNames.count name

def origin (P : Program) : Origin P where
  inside file n := P.Has ⟨file, n⟩
  named := P.BodyNamed
  has hd := hd
  child hn hc := Node.Contains.trans hn (Node.contains_of_mem_children hc)
  nil name hname := by simp at hname
  objectType {file n} hn hkind name _ := ⟨n, ⟨file, n, hn, .inl ⟨hkind, rfl⟩⟩, Nat.le_refl _⟩
  interface {file n body} hn hkind hbody name _ :=
    ⟨body, ⟨file, n, hn, .inr ⟨hkind, hbody⟩⟩, Nat.le_refl _⟩
  sublist {names part} h hsub name hname := by
    have hle := hsub.count_le name
    obtain ⟨body, hbody, hcount⟩ := h name (Nat.lt_of_lt_of_le hname hle)
    exact ⟨body, hbody, Nat.le_trans hle hcount⟩
  append {own rest} h hnodup hnew name hname := by
    have hrest : rest.count name = 0 := by
      by_contra hne
      have hmem : name ∈ rest := List.count_pos_iff.1 (Nat.pos_of_ne_zero hne)
      rw [List.count_append, List.count_eq_zero.2 (hnew name hmem), Nat.zero_add,
        List.count_eq_one_of_mem hnodup hmem] at hname
      exact Nat.lt_irrefl 1 hname
    rw [List.count_append, hrest, Nat.add_zero] at hname ⊢
    exact h name hname

section Props

variable {file place : FileId} {n type : Node}

theorem has_child? (hn : P.Has ⟨file, n⟩) {f : Field} (h : n.child? f = some type) :
    P.Has ⟨file, type⟩ :=
  P.origin.inside_child? hn h

theorem has_of_parameterType? (hn : P.Has ⟨file, n⟩) (h : n.parameterType? = some type) :
    P.Has ⟨file, type⟩ := by
  simp only [Node.parameterType?, Option.bind_eq_bind, Option.bind_eq_some_iff] at h
  obtain ⟨parameters, hparameters, first, hfirst, htype⟩ := h
  have hmem := List.mem_of_find?_eq_some hfirst
  exact has_child? (P.origin.inside_part (has_child? hn hparameters) hmem) htype

theorem has_of_annotatedProps? (hn : P.Has ⟨file, n⟩) (h : n.annotatedProps? = some type) :
    P.Has ⟨file, type⟩ := by
  simp only [Node.annotatedProps?, Option.bind_eq_bind, Option.bind_eq_some_iff] at h
  obtain ⟨annotated, hannotated, generic, hgeneric, name, -, h⟩ := h
  have hmem := List.mem_of_find?_eq_some hgeneric
  have hinside := P.origin.inside_part (has_child? hn hannotated) hmem
  split at h
  · exact P.origin.inside_partsOf hinside (List.mem_of_head? h)
  · cases h

def Leads (P : Program) (file : FileId) : PropsSource → Prop
  | .type n => P.Has ⟨file, n⟩
  | .component place m => P.Has ⟨place, m⟩
  | .unknown => True

theorem has_of_firstArgument? {argument : Node} (hn : P.Has ⟨file, n⟩)
    (h : n.firstArgument? = some argument) : P.Has ⟨file, argument⟩ := by
  obtain ⟨arguments, harguments, hhead⟩ := Option.bind_eq_some_iff.1 h
  exact P.origin.inside_head? (has_child? hn harguments) hhead

theorem leads_callSource (hn : P.Has ⟨file, n⟩) : P.Leads file (callSource file n) := by
  rw [callSource]
  split
  · split
    · next h => exact has_of_firstArgument? hn h
    · trivial
  · split
    · next h =>
      refine P.origin.inside_partsOf hn (f := .typeArguments) ?_
      rw [← Node.typeArguments, h]
      simp
    · split
      · next h => exact has_of_firstArgument? hn h
      · trivial
  · trivial

theorem leads_propsSource (hn : P.Has ⟨file, n⟩) : P.Leads file (P.propsSource file n) := by
  rw [propsSource]
  split
  · split
    · next h => exact has_of_parameterType? hn h
    · trivial
  · split
    · exact leads_callSource hn
    · split
      · next h => exact has_of_resolve? h
      · trivial
    · trivial

theorem has_of_propsNodeAt {levels : Nat} (hn : P.Has ⟨file, n⟩)
    (h : P.propsNodeAt levels file n = some (place, type)) : P.Has ⟨place, type⟩ := by
  induction levels generalizing file n with
  | zero => cases h
  | succ levels ih =>
    rw [propsNodeAt] at h
    split at h
    · obtain h | ⟨-, h⟩ := Option.or_eq_some_iff.1 h
      · obtain ⟨value, hvalue, h⟩ := Option.bind_eq_some_iff.1 h
        exact ih (has_child? hn hvalue) h
      · obtain ⟨annotated, hannotated, heq⟩ := Option.map_eq_some_iff.1 h
        cases heq
        exact has_of_annotatedProps? hn hannotated
    · have hleads := leads_propsSource hn
      split at h
      · next heq =>
        rw [heq] at hleads
        cases h
        exact hleads
      · next heq =>
        rw [heq] at hleads
        exact ih hleads h
      · cases h

theorem has_of_propsPlace? (h : P.propsPlace? file = some (place, type)) : P.Has ⟨place, type⟩ := by
  obtain ⟨d, hd, h⟩ := Option.bind_eq_some_iff.1 h
  exact has_of_propsNodeAt (has_answerAt hd) h

end Props

def Request.Within : P.Request → Prop
  | .typeAt file n => P.Has ⟨file, n⟩
  | .propsType d => P.Has d
  | _ => True

theorem Request.Within.has {request : P.Request} (h : request.Within) {file : FileId} {n : Node}
    (hcall : request.call? = some (.typeAt file n)) : P.Has ⟨file, n⟩ := by
  cases request with
  | typeAt file' n' =>
    cases hcall
    exact h
  | declaredType d hd => cases hcall
  | propsType d =>
    obtain ⟨⟨place, type⟩, hplace, heq⟩ := Option.map_eq_some_iff.1 hcall
    cases heq
    exact has_of_propsNodeAt h hplace
  | schemaEntry root file' =>
    obtain ⟨⟨place, type⟩, hplace, heq⟩ := Option.map_eq_some_iff.1 hcall
    cases heq
    exact has_of_propsPlace? hplace

theorem isFrom_servedFrom {b : Bindings} (hb : b.table.IsFrom P.origin) {requests : List P.Request}
    (h : ∀ request ∈ requests, request.Within) : (servedFrom b requests).table.IsFrom P.origin := by
  induction requests generalizing b with
  | nil => exact hb
  | cons request requests ih =>
    obtain ⟨hfirst, hrest⟩ := List.forall_mem_cons.1 h
    rw [servedFrom_cons]
    apply ih _ hrest
    rw [after_serve]
    cases hcall : request.call? with
    | none => exact hb
    | some call =>
      refine (P.origin.yielding.perform call ?_ b hb trivial).1
      rintro file n rfl
      exact hfirst.has hcall

theorem bodyNamed_of_objectLevel {t : TypeTable} (ht : t.IsFrom P.origin) {ty : TypeId}
    {props level : List PropDefinition} (h : t.props ty = some props)
    (hlevel : PropDefinition.ObjectLevel props level) : P.BodyNamed (level.map (·.name)) := by
  have hmembers : ∀ ty, P.BodyNamed (((t.members ty).filter (·.declaration.isSome)).map (·.name)) :=
    fun ty => P.origin.namedAll_filter (ht.namedAll_membersAt _ ty) _
  obtain ⟨htop, hbelow⟩ := TypeTable.levelsNamed_propsAt P.origin.nil hmembers h
  cases hlevel with
  | top => exact htop
  | inside hp hn htype hchildren => exact hbelow _ hp _ hn htype _ hchildren

/-- Where a name repeats among the props of an entry, or among the children of an object somewhere
in it, there is a body in the program that repeats it at least as often. -/
theorem repeated_name_in_body {requests : List P.Request}
    (hrequests : ∀ request ∈ requests, request.Within) {root : Path} {file : FileId}
    {entry : SchemaEntry}
    (hentry : ((served requests).after (P.schemaEntry root file)).1 = some (some entry))
    {level : List PropDefinition} (hlevel : PropDefinition.ObjectLevel entry.props level)
    {name : String} (hname : 1 < (level.map (·.name)).count name) :
    ∃ body, P.HasBody body ∧ (level.map (·.name)).count name ≤ body.memberNames.count name := by
  have hserved : (served requests).table.IsFrom P.origin := isFrom_servedFrom (.empty _) hrequests
  rw [schemaEntry] at hentry
  cases hplace : P.propsPlace? file with
  | none =>
    rw [after_schemaEntry_of_none hplace] at hentry
    cases hentry
  | some place =>
    have hyields := P.origin.yielding.binderAt bindLevels ⟨place.1, []⟩ place.2
      (has_of_propsPlace? hplace) (served requests) hserved trivial
    rw [after_schemaEntry_of_some hplace] at hentry
    exact bodyNamed_of_objectLevel hyields.1 (props_of_entryOf hentry) hlevel name hname

def SourceLine.method (l : SourceLine) (id column : Nat) (keyword : String) : Node :=
  let stop := column + 6 + keyword.utf8ByteSize
  l.node id .methodSignature true none column ("on(a: " ++ keyword ++ "): void") [
    l.node (id + 1) .propertyIdentifier true (some .name) column "on" [],
    l.node (id + 2) (.other "formal_parameters") true (some .parameters) (column + 2)
        ("(a: " ++ keyword ++ ")") [
      l.token (id + 3) (column + 2) "(",
      l.node (id + 4) .requiredParameter true none (column + 3) ("a: " ++ keyword) [
        l.node (id + 5) .identifier true (some .pattern) (column + 3) "a" [],
        l.node (id + 6) .annotatedType true (some .type) (column + 4) (": " ++ keyword) [
          l.token (id + 7) (column + 4) ":",
          l.keywordType (id + 8) none (column + 6) keyword]],
      l.token (id + 10) stop ")"],
    l.node (id + 11) .annotatedType true (some .returnType) (stop + 1) ": void" [
      l.token (id + 12) (stop + 1) ":",
      l.keywordType (id + 13) none (stop + 3) "void"]]

def overloaded : Program :=
  let l : SourceLine := ⟨1, 0, 1⟩
  let body := "\x7b on(a: string): void; on(a: number): void \x7d"
  ofLines ⟨"src/Bell.tsx"⟩ [
    l.node 0 .interfaceDeclaration true none 0 ("interface Props " ++ body) [
      l.token 1 0 "interface",
      l.typeName 2 (some .name) 10 "Props",
      l.node 3 (.other "interface_body") true (some .body) 16 body [
        l.token 4 16 "\x7b",
        l.method 5 18 "string",
        l.token 20 37 ";",
        l.method 21 39 "number",
        l.token 36 59 "\x7d"]],
    (⟨38, 61, 2⟩ : SourceLine).component "Props"]

theorem props_of_overloaded :
    ∃ entry : SchemaEntry,
      (({} : Bindings).after (overloaded.schemaEntry ⟨"src"⟩ 0)).1 = some (some entry) ∧
      entry.props.map (·.name) = ["on", "on"] := by
  have hnames : (({} : Bindings).after (overloaded.schemaEntry ⟨"src"⟩ 0)).1.map
      (·.map (·.props.map (·.name))) = some (some ["on", "on"]) := by
    decide +kernel
  obtain ⟨found, hfound, hnames⟩ := Option.map_eq_some_iff.1 hnames
  obtain ⟨entry, rfl, hnames⟩ := Option.map_eq_some_iff.1 hnames
  exact ⟨entry, hfound, Option.some.inj hnames⟩

theorem overloaded_name_in_body :
    ∃ entry : SchemaEntry,
      (({} : Bindings).after (overloaded.schemaEntry ⟨"src"⟩ 0)).1 = some (some entry) ∧
      (entry.props.map (·.name)).count "on" = 2 ∧
      ∃ body, overloaded.HasBody body ∧ 2 ≤ body.memberNames.count "on" := by
  obtain ⟨entry, hentry, hnames⟩ := props_of_overloaded
  have hcount : (entry.props.map (·.name)).count "on" = 2 := by
    rw [hnames]
    decide
  obtain ⟨body, hbody, hle⟩ := repeated_name_in_body (P := overloaded) (List.forall_mem_nil _)
    hentry .top (by rw [hcount]; decide)
  exact ⟨entry, hentry, hcount, body, hbody, hcount ▸ hle⟩

/-- A method with two signatures is listed twice. -/
theorem overloads_repeat_name :
    ∃ entry : SchemaEntry,
      (({} : Bindings).after (overloaded.schemaEntry ⟨"src"⟩ 0)).1 = some (some entry) ∧
      ¬ (entry.props.map (·.name)).Nodup := by
  obtain ⟨entry, hentry, hnames⟩ := props_of_overloaded
  exact ⟨entry, hentry, by rw [hnames]; decide⟩

end Program

end PropSchema
