import PropSchema.Proofs.Binding.Contract
import PropSchema.Proofs.Binding.Inheritance

namespace PropSchema

def Node.memberName? (n : Node) : Option String :=
  match n.kind with
  | .propertySignature | .methodSignature => n.propertyName?
  | _ => none

def Node.memberNames (body : Node) : List String := body.parts.filterMap memberName?

theorem Node.map_fst_memberSite? (file : FileId) (n : Node) :
    (n.memberSite? file).map Prod.fst = n.memberName? := by
  rw [memberSite?, memberName?]
  cases hk : n.kind <;> cases n.propertyName? <;> rfl

theorem mergeMembers_distinct (own extra : List Member) :
    ∃ rest, mergeMembers own extra = own ++ rest ∧ (rest.map (·.name)).Nodup ∧
      ∀ name ∈ rest.map (·.name), name ∉ own.map (·.name) := by
  obtain ⟨rest, hrest, hnames⟩ := exists_mergeMembers_eq own extra
  refine ⟨rest, hrest, hnames ▸ TypeTable.nodup_eraseDups _, fun name hname => ?_⟩
  rw [hnames, List.mem_eraseDups, List.mem_filter, decide_eq_true_eq] at hname
  exact hname.2

/-- A set of nodes with all that is inside them, and a property of lists of names that the bodies
among these nodes have. -/
structure Origin (P : Program) where
  inside : FileId → Node → Prop
  named : List String → Prop
  has : ∀ {d}, P.Has d → inside d.file d.node
  child : ∀ {file n c}, inside file n → c ∈ n.children → inside file c
  nil : named []
  objectType : ∀ {file n}, inside file n → n.kind = .objectType → named n.memberNames
  interface : ∀ {file n body}, inside file n → n.kind = .interfaceDeclaration →
    n.child? .body = some body → named body.memberNames
  sublist : ∀ {names part}, named names → part.Sublist names → named part
  append : ∀ {own rest}, named own → rest.Nodup → (∀ name ∈ rest, name ∉ own) →
    named (own ++ rest)

namespace Origin

open Dialogue

variable {P : Program} (O : Origin P)

def NamedAll (ms : List Member) : Prop := O.named (ms.map (·.name))

def Admits : Form → Prop
  | .object o => O.NamedAll o.members
  | _ => True

def Fits : Question → Prop
  | .type scope n => O.inside scope.file n
  | .add f _ => f.isLiteral = false ∧ O.Admits f
  | .intern f _ => O.Admits f
  | _ => True

def Grants : (q : Question) → q.Answer → Prop
  | .members _, ms => O.NamedAll ms
  | _, _ => True

def contract : Contract := ⟨O.Fits, O.Grants⟩

theorem namedAll_mergeMembers {own : List Member} (h : O.NamedAll own) (extra : List Member) :
    O.NamedAll (mergeMembers own extra) := by
  obtain ⟨rest, hrest, hnodup, hnew⟩ := mergeMembers_distinct own extra
  rw [NamedAll, hrest, List.map_append]
  exact O.append h hnodup hnew

theorem namedAll_filter {ms : List Member} (h : O.NamedAll ms) (p : Member → Bool) :
    O.NamedAll (ms.filter p) :=
  O.sublist h (List.filter_sublist.map _)

section Nodes

variable {file : FileId} {n c : Node}

theorem node_of_parameterSyntax? {p : Node.ParameterSyntax} {place : Nat}
    (h : n.parameterSyntax? place = some p) : p.node = n := by
  have hnode : ∀ q : Node.ParameterSyntax, some q = some p → p.node = q.node :=
    fun q heq => congrArg Node.ParameterSyntax.node (Option.some.inj heq).symm
  rw [Node.parameterSyntax?] at h
  split at h
  · exact absurd h.symm (Option.some_ne_none p)
  split at h
  · exact hnode _ h
  split at h
  · exact hnode _ h
  · exact hnode _ h
  · exact absurd h.symm (Option.some_ne_none p)
  · exact hnode _ h

theorem inside_part (h : O.inside file n) (hc : c ∈ n.parts) : O.inside file c :=
  O.child h (List.mem_filter.1 hc).1

theorem inside_child? (h : O.inside file n) {f : Field} (hc : n.child? f = some c) :
    O.inside file c :=
  O.child h (List.mem_of_find?_eq_some hc)

theorem inside_head? (h : O.inside file n) (hc : n.parts.head? = some c) : O.inside file c :=
  O.inside_part h (List.mem_of_head? hc)

theorem inside_partsOf (h : O.inside file n) {f : Field}
    (hc : c ∈ ((n.child? f).map (·.parts)).getD []) : O.inside file c := by
  cases hf : n.child? f with
  | none =>
    rw [hf] at hc
    exact absurd hc List.not_mem_nil
  | some inner =>
    rw [hf] at hc
    exact O.inside_part (O.inside_child? h hf) hc

theorem inside_parameter (h : O.inside file n) {p : Node.ParameterSyntax} (hp : p ∈ n.parameters) :
    O.inside file p.node := by
  obtain ⟨⟨c, place⟩, hc, hsyntax⟩ := List.mem_filterMap.1 hp
  rw [node_of_parameterSyntax? hsyntax]
  exact O.inside_partsOf h (List.mem_zipIdx_iff_getElem?.1 hc |> List.mem_of_getElem?)

theorem inside_base (h : O.inside file n) (hc : c ∈ n.baseTypes) : O.inside file c := by
  obtain ⟨clause, hclause, hc⟩ := List.mem_flatMap.1 hc
  exact O.inside_part (O.inside_part h (List.mem_filter.1 hclause).1) hc

end Nodes

section Dialogues

variable {scope : Scope} {n : Node}

theorem keeps_typeOf (hn : O.inside scope.file n) :
    (typeOf scope n).Keeps O.contract fun _ => True :=
  ⟨hn, fun _ _ => trivial⟩

theorem keeps_add {f : Form} {plain : f.isPlain} (hliteral : f.isLiteral = false)
    (hf : O.Admits f) : (add f plain).Keeps O.contract fun _ => True :=
  ⟨⟨hliteral, hf⟩, fun _ _ => trivial⟩

theorem keeps_intern {f : Form} {plain : f.isPlain} (hf : O.Admits f) :
    (intern f plain).Keeps O.contract fun _ => True :=
  ⟨hf, fun _ _ => trivial⟩

theorem keeps_union (types : List TypeId) : (union types).Keeps O.contract fun _ => True :=
  ⟨trivial, fun _ _ => trivial⟩

theorem keeps_members (type : TypeId) : (members type).Keeps O.contract O.NamedAll :=
  ⟨trivial, fun _ h => h⟩

theorem keeps_optional (declared : TypeId) :
    (optional declared).Keeps O.contract fun _ => True :=
  (O.keeps_intern (f := .primitive .undefined) trivial).bind fun _ _ => O.keeps_union _

theorem keeps_orAny {inner : Option Node} (h : ∀ c, inner = some c → O.inside scope.file c) :
    (orAny scope inner).Keeps O.contract fun _ => True := by
  cases inner with
  | none => exact O.keeps_intern (f := .primitive .any) trivial
  | some c => exact O.keeps_typeOf (h c rfl)

theorem keeps_opaqueType (n : Node) : (opaqueType n).Keeps O.contract fun _ => True :=
  O.keeps_add rfl trivial

theorem keeps_literalType (n : Node) : (literalType n).Keeps O.contract fun _ => True := by
  rw [literalType]
  split
  · exact O.keeps_opaqueType n
  split
  · exact O.keeps_intern trivial
  · split
    · exact O.keeps_intern trivial
    · exact O.keeps_opaqueType n
  · split
    · exact O.keeps_intern trivial
    · exact O.keeps_opaqueType n
  · exact O.keeps_intern trivial
  · exact O.keeps_intern trivial
  · exact O.keeps_intern trivial
  · exact O.keeps_intern trivial
  · exact O.keeps_opaqueType n

theorem keeps_keywordType (n : Node) : (keywordType n).Keeps O.contract fun _ => True := by
  rw [keywordType]
  split
  · refine (O.keeps_intern (f := .booleanLiteral false) trivial).bind fun no _ => ?_
    exact (O.keeps_intern (f := .booleanLiteral true) trivial).bind fun yes _ => O.keeps_union _
  · exact O.keeps_intern trivial

theorem keeps_signature (hn : O.inside scope.file n) :
    (signature scope n).Keeps O.contract fun _ => True := by
  rw [signature]
  refine (Keeps.mapM_trivial fun p hp => ?_).bind fun params _ => ?_
  · refine (O.keeps_orAny fun c hc => ?_).bind fun type _ => trivial
    exact O.inside_child? (O.inside_parameter hn hp) hc
  · refine (O.keeps_orAny fun c hc => ?_).bind fun returns _ => trivial
    exact O.inside_child? hn hc

theorem keeps_member (name : String) (declared : TypeId) :
    (member scope n name declared).Keeps O.contract fun _ => True := by
  rw [member]
  split
  · exact (O.keeps_optional declared).bind fun _ _ => trivial
  · trivial

theorem keeps_entry (hn : O.inside scope.file n) :
    (entry scope n).Keeps O.contract fun _ => True := by
  rw [entry]
  split
  · refine (O.keeps_orAny fun c hc => O.inside_child? hn hc).bind fun declared _ => ?_
    exact (O.keeps_member _ declared).bind fun _ _ => trivial
  · refine (O.keeps_signature hn).bind fun s _ => ?_
    refine (O.keeps_add (f := .function s) rfl trivial).bind fun declared _ => ?_
    exact (O.keeps_member _ declared).bind fun _ _ => trivial
  · exact (O.keeps_signature hn).bind fun _ _ => trivial
  · trivial

theorem keeps_objectBody (name : Option String) (hn : O.inside scope.file n) :
    (objectBody scope name n).Keeps O.contract fun o =>
      o.members.map (·.name) = n.memberNames := by
  have hkeeps : (objectBody scope name n).Keeps O.contract fun _ => True :=
    (Keeps.mapM_trivial fun e he => O.keeps_entry (O.inside_part hn he)).bind fun _ _ => trivial
  refine (hkeeps.and_ends (objectBody_ends scope name n)).imp fun o ho => ?_
  have hnames : o.members.map (·.name) = (o.members.map Member.signpost).map Prod.fst := by
    rw [List.map_map]
    rfl
  rw [hnames, ho.2, List.map_filterMap, Node.memberNames]
  simp only [Node.map_fst_memberSite?]

theorem keeps_withBases {own : List Member} (hown : O.NamedAll own) {bases : List Node}
    (h : ∀ base ∈ bases, O.inside scope.file base) :
    (withBases scope own bases).Keeps O.contract O.NamedAll := by
  induction bases generalizing own with
  | nil => exact hown
  | cons base bases ih =>
    rw [withBases, List.foldlM_cons]
    have hstep : (do return mergeMembers own (← members (← typeOf scope base))).Keeps O.contract
        O.NamedAll := by
      refine (O.keeps_typeOf (h base List.mem_cons_self)).bind fun type _ => ?_
      exact (O.keeps_members type).bind fun ms _ => O.namedAll_mergeMembers hown ms
    exact hstep.bind fun inherited hinherited =>
      ih hinherited fun base hbase => h base (List.mem_cons_of_mem _ hbase)

theorem keeps_interfaceBody (hn : O.inside scope.file n) (hkind : n.kind = .interfaceDeclaration)
    (name : String) :
    (interfaceBody scope n name).Keeps O.contract fun o => O.NamedAll o.members := by
  have hown : (ownBody scope n name).Keeps O.contract fun o => O.NamedAll o.members := by
    rw [ownBody]
    split
    · next body hbody =>
      refine (O.keeps_objectBody (some name) (O.inside_child? hn hbody)).imp fun o ho => ?_
      rw [NamedAll, ho]
      exact O.interface hn hkind hbody
    · exact O.nil
  refine hown.bind fun object hobject => ?_
  exact (O.keeps_withBases hobject fun base hbase => O.inside_base hn hbase).bind fun _ hms => hms

theorem keeps_mapM_memberOptional (ms : List Member) :
    (ms.mapM memberOptional).Keeps O.contract fun rs => rs.map (·.name) = ms.map (·.name) := by
  have hkeeps : (ms.mapM memberOptional).Keeps O.contract fun _ => True :=
    Keeps.mapM_trivial fun m _ => (O.keeps_optional m.declared).bind fun _ _ => trivial
  have hends : (ms.mapM memberOptional).Ends fun rs =>
      rs.filterMap (fun m => some m.name) = ms.filterMap fun m => some m.name := by
    refine Ends.filterMap (fun m => ?_) ms
    exact Ends.of_bind _ fun site => rfl
  refine (hkeeps.and_ends hends).imp fun rs hrs => ?_
  simpa using hrs.2

theorem keeps_utilityMembers {ms : List Member} (hms : O.NamedAll ms) (u : Utility)
    (args : List TypeId) : (utilityMembers ms u args).Keeps O.contract
      fun found => ∀ rs, found = some rs → O.NamedAll rs := by
  have hsome : ∀ rs : List Member, O.NamedAll rs → ∀ rs', some rs = some rs' → O.NamedAll rs' :=
    fun rs hrs rs' heq => Option.some.inj heq ▸ hrs
  rw [utilityMembers.eq_def]
  split
  · refine (O.keeps_mapM_memberOptional ms).bind fun rs hrs => hsome rs ?_
    rwa [NamedAll, hrs]
  · apply hsome
    rwa [NamedAll, List.map_map]
  · exact hsome ms hms
  · exact ⟨trivial, fun names _ => hsome _ (O.namedAll_filter hms _)⟩
  · exact ⟨trivial, fun names _ => hsome _ (O.namedAll_filter hms _)⟩
  · exact fun rs heq => (Option.some_ne_none rs heq.symm).elim

theorem keeps_utility (u : Utility) (args : List TypeId) :
    (utility u args).Keeps O.contract fun _ => True := by
  rw [utility.eq_def]
  split
  · trivial
  · next first rest =>
    refine (O.keeps_members first).bind fun ms hms => ?_
    split
    · trivial
    refine (O.keeps_utilityMembers hms u _).bind fun found hfound => ?_
    cases found with
    | none => trivial
    | some rs =>
      refine (Keeps.mapM_trivial fun type _ => ?_).bind fun texts _ => ?_
      · exact ⟨trivial, fun _ _ => trivial⟩
      · exact (O.keeps_add (f := .object ⟨_, rs, []⟩) rfl (hfound rs rfl)).bind fun _ _ => trivial

theorem keeps_globalType (name : String) (args : List TypeId) :
    (globalType name args).Keeps O.contract fun _ => True := by
  have hreference : (add (.reference name args)).Keeps O.contract fun _ => True :=
    O.keeps_add rfl trivial
  unfold globalType
  split
  · exact O.keeps_intern trivial
  · exact O.keeps_intern trivial
  rw [utilityOrReference]
  split
  · exact hreference
  · refine (O.keeps_utility _ args).bind fun found _ => ?_
    cases found with
    | none => exact hreference
    | some type => trivial

theorem keeps_namedType (scope : Scope) (name : String) (args : List TypeId) :
    (namedType P scope name args).Keeps O.contract fun _ => True := by
  rw [namedType]
  split
  · exact (O.keeps_add (f := .typeParameter name) rfl trivial).bind fun _ _ => trivial
  split
  · trivial
  · exact (O.keeps_globalType name args).bind fun _ _ => trivial

theorem keeps_types {ns : List Node} (h : ∀ c ∈ ns, O.inside scope.file c) :
    (ns.mapM (typeOf scope)).Keeps O.contract fun _ => True :=
  Keeps.mapM_trivial fun c hc => O.keeps_typeOf (h c hc)

theorem keeps_genericType (hn : O.inside scope.file n) :
    (genericType P scope n).Keeps O.contract fun _ => True := by
  refine (O.keeps_types fun c hc => O.inside_partsOf hn hc).bind fun args _ => ?_
  split
  · exact (O.keeps_opaqueType n).bind fun _ _ => trivial
  split
  · exact (O.keeps_add (f := .reference _ args) rfl trivial).bind fun _ _ => trivial
  · exact O.keeps_namedType scope _ args

theorem keeps_tupleElement (hn : O.inside scope.file n) :
    (tupleElement scope n).Keeps O.contract fun _ => True := by
  rw [tupleElement]
  split
  next inner optional rest heq =>
  refine (O.keeps_orAny fun c hc => ?_).bind fun _ _ => trivial
  split at heq <;> obtain ⟨rfl, -⟩ := Prod.mk.inj heq
  · exact O.inside_head? hn hc
  · exact O.inside_head? hn hc
  · exact O.inside_child? hn hc
  · exact O.inside_child? hn hc
  · exact Option.some.inj hc ▸ hn

theorem keeps_structuralType (hn : O.inside scope.file n) :
    (structuralType scope n).Keeps O.contract fun _ => True := by
  have hhead : (orAny scope n.parts.head?).Keeps O.contract fun _ => True :=
    O.keeps_orAny fun c hc => O.inside_head? hn hc
  have htypes : (n.parts.mapM (typeOf scope)).Keeps O.contract fun _ => True :=
    O.keeps_types fun c hc => O.inside_part hn hc
  rw [structuralType]
  split
  · exact hhead
  · exact hhead
  · exact hhead
  · exact O.keeps_keywordType n
  · exact O.keeps_literalType n
  · exact O.keeps_intern trivial
  · exact O.keeps_intern trivial
  · exact O.keeps_intern trivial
  · next hkind =>
    refine (O.keeps_objectBody none hn).bind fun object hobject => O.keeps_add rfl ?_
    change O.named (object.members.map (·.name))
    rw [hobject]
    exact O.objectType hn hkind
  · exact hhead.bind fun element _ => O.keeps_intern trivial
  · refine (Keeps.mapM_trivial fun e he => ?_).bind fun elements _ => O.keeps_add rfl trivial
    exact O.keeps_tupleElement (O.inside_part hn he)
  · exact htypes.bind fun types _ => O.keeps_union types
  · exact htypes.bind fun types _ => ⟨trivial, fun _ _ => trivial⟩
  · exact (O.keeps_signature hn).bind fun s _ => O.keeps_add rfl trivial
  · exact O.keeps_opaqueType n

theorem keeps_meaning (hn : O.inside scope.file n) :
    (meaning P scope n).Keeps O.contract fun _ => True := by
  rw [meaning]
  split
  · exact O.keeps_namedType scope _ []
  · exact O.keeps_namedType scope _ []
  · exact O.keeps_genericType hn
  · exact (O.keeps_structuralType hn).bind fun _ _ => trivial

end Dialogues

end Origin

namespace TypeTable

variable {P : Program} {O : Origin P} {t u : TypeTable} {f : Form}

structure IsFrom (O : Origin P) (t : TypeTable) : Prop where
  admits : ∀ id, O.Admits (t.entry id).form
  literal : ∀ id f, t.entry id = ⟨f, none⟩ → f.isLiteral → t.interned.lookup f = some id

namespace IsFrom

theorem empty (O : Origin P) : IsFrom O {} where
  admits id := by
    rw [entry_of_size_le (Nat.zero_le id)]
    trivial
  literal id f he hf := by
    rw [entry_of_size_le (Nat.zero_le id)] at he
    cases he
    cases hf

theorem admits_formAt (h : t.IsFrom O) (hops : Nat) (id : TypeId) :
    O.Admits (t.formAt hops id) := by
  induction hops generalizing id with
  | zero => exact h.admits id
  | succ hops ih =>
    rw [formAt]
    split
    · split
      · trivial
      · exact ih _
    · exact h.admits id

theorem namedAll_membersAt (h : t.IsFrom O) (levels : Nat) (id : TypeId) :
    O.NamedAll (t.membersAt levels id) := by
  induction levels generalizing id with
  | zero => exact O.nil
  | succ levels ih =>
    have hform : O.Admits (t.form id) := h.admits_formAt aliasHops id
    rw [membersAt]
    generalize t.form id = f at hform ⊢
    cases f with
    | object type => exact hform
    | union parts =>
      cases parts with
      | nil => exact O.nil
      | cons first rest => exact O.namedAll_filter (ih first) _
    | intersection parts =>
      apply List.foldlRecOn (motive := O.NamedAll)
      · exact O.nil
      · exact fun ms hms part _ => O.namedAll_mergeMembers hms _
    | _ => exact O.nil

theorem extend (h : t.IsFrom O)
    (hlookup : ∀ {f id}, t.interned.lookup f = some id → u.interned.lookup f = some id)
    (hnew : ∀ id, u.entry id = t.entry id ∨ O.Admits (u.entry id).form ∧
      ∀ f, u.entry id = ⟨f, none⟩ → f.isLiteral → u.interned.lookup f = some id) : u.IsFrom O where
  admits id := by
    obtain hold | ⟨hf, -⟩ := hnew id
    · rw [hold]
      exact h.admits id
    · exact hf
  literal id f he hf := by
    obtain hold | ⟨-, hliteral⟩ := hnew id
    · exact hlookup (h.literal id f (hold.symm.trans he) hf)
    · exact hliteral f he hf

theorem addForm (h : t.IsFrom O) (hliteral : f.isLiteral = false) (hf : O.Admits f) :
    (t.addForm f).2.IsFrom O := by
  refine h.extend (grows_addForm t f).lookup_eq fun id => ?_
  obtain hold | ⟨-, hnew⟩ := t.entry_addForm_cases f id
  · exact .inl hold
  · rw [hnew]
    refine .inr ⟨hf, fun g he hg => ?_⟩
    cases he
    rw [hliteral] at hg
    cases hg

theorem intern (h : t.IsFrom O) (hf : O.Admits f) : (t.intern f).2.IsFrom O := by
  cases hl : t.interned.lookup f with
  | some old =>
    rw [intern_of_lookup hl]
    exact h
  | none =>
    have hlookup := lookup_intern t f
    refine h.extend (grows_intern t f).lookup_eq fun id => ?_
    rw [intern_of_lookup_none hl] at hlookup ⊢
    obtain hold | ⟨rfl, hnew⟩ := t.entry_addForm_cases f id
    · exact .inl hold
    · refine .inr ?_
      change O.Admits ((t.addForm f).2.entry t.size).form ∧ ∀ g,
        (t.addForm f).2.entry t.size = ⟨g, none⟩ → _
      rw [hnew]
      refine ⟨hf, fun g he _ => ?_⟩
      cases he
      exact hlookup

theorem setForm (h : t.IsFrom O) (slot : TypeId) (hliteral : f.isLiteral = false)
    (hf : O.Admits f) : (t.setForm slot f).IsFrom O := by
  refine h.extend id fun id => ?_
  obtain hold | hnew := t.entry_setForm_cases slot f id
  · exact .inl hold
  · rw [hnew]
    refine .inr ⟨hf, fun g he hg => ?_⟩
    obtain rfl : f = g := congrArg Entry.form he
    rw [hliteral] at hg
    cases hg

theorem setAlias (h : t.IsFrom O) (slot : TypeId) (name : String) (target : TypeId) :
    (t.setAlias slot name target).IsFrom O := by
  refine h.extend id fun id => ?_
  obtain hold | hnew := t.entry_setAlias_cases slot name target id
  · exact .inl hold
  · rw [hnew]
    exact .inr ⟨h.admits_formAt _ _, fun g he _ => by cases he⟩

theorem union (h : t.IsFrom O) (types : List TypeId) : (t.union types).2.IsFrom O := by
  obtain ⟨-, heq⟩ | ⟨one, -, heq⟩ | ⟨-, heq⟩ := t.union_cases types
  · exact heq ▸ h.intern (f := .primitive .never) trivial
  · exact heq ▸ h
  · exact heq ▸ h.intern (f := .union _) trivial

theorem intersection (h : t.IsFrom O) (types : List TypeId) :
    (t.intersection types).2.IsFrom O := by
  obtain ⟨one, -, heq⟩ | heq := t.intersection_cases types
  · exact heq ▸ h
  · exact heq ▸ h.addForm (f := .intersection _) rfl trivial

end IsFrom

end TypeTable

namespace Binder

variable {P : Program} {O : Origin P} {bind : Binder}

theorem yields_answer_isFrom
    (hbind : ∀ scope n, O.inside scope.file n →
      Yields (·.table.IsFrom O) (fun _ => True) (bind scope n) fun _ => True)
    (q : Question) (hq : O.Fits q) :
    Yields (·.table.IsFrom O) (fun _ => True) (bind.answer q) (O.Grants q) := by
  cases q with
  | type scope n => exact hbind scope n hq
  | add f plain => exact fun b hb _ => ⟨hb.addForm hq.1 hq.2, trivial⟩
  | intern f plain => exact fun b hb _ => ⟨hb.intern hq, trivial⟩
  | union types => exact fun b hb _ => ⟨hb.union types, trivial⟩
  | intersection types => exact fun b hb _ => ⟨hb.intersection types, trivial⟩
  | members type => exact fun b hb _ => ⟨hb, hb.namedAll_membersAt _ _⟩
  | keyNames keys => exact fun b hb _ => ⟨hb, trivial⟩
  | display type => exact fun b hb _ => ⟨hb, trivial⟩

end Binder

theorem Origin.yielding {P : Program} (O : Origin P) :
    P.Yielding O.inside (·.table.IsFrom O) (fun _ => True) (fun _ => True)
      fun o => O.NamedAll o.members where
  has := O.has
  foreseen _ _ := trivial
  any _ hb _ := ⟨hb.intern (f := .primitive .any) trivial, trivial⟩
  meaning hgrows hbind scope n hn b hb hend :=
    ⟨(Binder.yields_run (fun _ _ => trivial) hgrows (Binder.yields_answer_isFrom hbind)
      (O.keeps_meaning hn) b hb hend).1, fun _ _ => trivial⟩
  interfaceBody hgrows hbind d hd hkind :=
    Binder.yields_run (fun _ _ => trivial) hgrows (Binder.yields_answer_isFrom hbind)
      (O.keeps_interfaceBody (O.has hd) hkind d.name)
  aliasBody hgrows hbind d hd :=
    Binder.yields_run (fun _ _ => trivial) hgrows (Binder.yields_answer_isFrom hbind)
      (O.keeps_orAny fun _ hc => O.inside_child? (O.has hd) hc)
  declared _ _ := trivial
  declare {b d f} hb hf _ := by
    refine ⟨?_, trivial⟩
    obtain rfl | rfl := hf
    · exact hb.addForm rfl trivial
    · have hleaf : d.leafForm.isLiteral = false ∧ O.Admits d.leafForm := by
        rw [Declaration.leafForm]
        split
        · exact ⟨rfl, trivial⟩
        · exact ⟨rfl, trivial⟩
      exact hb.addForm hleaf.1 hleaf.2
  fillInterface slot hb ho := hb.setForm slot (f := .object _) rfl ho
  fillAlias {b body} slot name hb _ := by
    rw [Bindings.fillAlias]
    split
    · exact hb.setForm slot (f := .primitive .any) rfl trivial
    · exact hb.setAlias slot name body

end PropSchema
