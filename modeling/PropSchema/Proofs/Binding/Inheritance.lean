import Mathlib.Data.List.Forall2
import PropSchema.Proofs.Binding.Moments
import PropSchema.Proofs.Ty.Members

namespace PropSchema

theorem exists_foldl_mergeMembers {α : Type} (f : α → List Member) (own : List Member)
    (l : List α) :
    ∃ inherited, l.foldl (fun ms a => mergeMembers ms (f a)) own = own ++ inherited ∧
      ∀ name, name ∈ inherited.map (·.name) ↔
        name ∉ own.map (·.name) ∧ ∃ a ∈ l, name ∈ (f a).map (·.name) := by
  induction l generalizing own with
  | nil => exact ⟨[], by simp, by simp⟩
  | cons a l ih =>
    obtain ⟨first, hfirst, hnames⟩ := exists_mergeMembers_eq own (f a)
    have hmem (name : String) :
        name ∈ first.map (·.name) ↔ name ∈ (f a).map (·.name) ∧ name ∉ own.map (·.name) := by
      rw [hnames, List.mem_eraseDups, List.mem_filter, decide_eq_true_eq]
    obtain ⟨rest, hrest, hnames'⟩ := ih (own ++ first)
    refine ⟨first ++ rest, ?_, fun name => ?_⟩
    · rw [List.foldl_cons, hfirst, hrest, List.append_assoc]
    · rw [List.map_append, List.mem_append, hnames', hmem, List.map_append, List.mem_append, hmem,
        List.exists_mem_cons_iff]
      tauto

def Node.memberSite? (file : FileId) (n : Node) : Option (String × Option Site) :=
  match n.kind, n.propertyName? with
  | .propertySignature, some name => some (name, some ⟨file, n.line⟩)
  | .methodSignature, some name => some (name, some ⟨file, n.line⟩)
  | _, _ => none

def Declaration.memberSites (d : Declaration) : List (String × Option Site) :=
  match d.node.child? .body with
  | some body => body.parts.filterMap (Node.memberSite? d.file)
  | none => []

def Member.signpost (m : Member) : String × Option Site := (m.name, m.declaration)

namespace Dialogue

theorem Ends.filterMap {α β γ : Type} {f : α → Dialogue β} {g : β → Option γ} {h : α → Option γ}
    (hf : ∀ a, (f a).Ends fun b => g b = h a) (l : List α) :
    (l.mapM f).Ends fun bs => bs.filterMap g = l.filterMap h := by
  induction l with
  | nil => exact rfl
  | cons a l ih =>
    rw [List.mapM_cons]
    refine (hf a).bind fun b hb => ih.bind fun bs hbs => ?_
    change (b :: bs).filterMap g = (a :: l).filterMap h
    rw [List.filterMap_cons, List.filterMap_cons, hb, hbs]

theorem member_ends (scope : Scope) (n : Node) (name : String) (declared : TypeId) :
    (member scope n name declared).Ends
      fun m => m.signpost = (name, some ⟨scope.file, n.line⟩) := by
  rw [member]
  split
  · apply Ends.of_bind
    intro site
    exact rfl
  · exact rfl

theorem entry_ends (scope : Scope) (n : Node) :
    (entry scope n).Ends fun e => e.member?.map Member.signpost = n.memberSite? scope.file := by
  rw [entry]
  split
  · next name hk hn =>
    rw [Node.memberSite?, hk, hn]
    refine Ends.of_bind _ fun declared => (member_ends scope n name declared).bind fun m hm => ?_
    exact congrArg some hm
  · next name hk hn =>
    rw [Node.memberSite?, hk, hn]
    refine Ends.of_bind _ fun signature => Ends.of_bind _ fun declared => ?_
    refine (member_ends scope n name declared).bind fun m hm => ?_
    exact congrArg some hm
  · next hk =>
    rw [Node.memberSite?, hk]
    refine Ends.of_bind _ fun signature => ?_
    rfl
  · next hproperty hmethod =>
    change none = n.memberSite? scope.file
    rw [Node.memberSite?]
    split
    · next hk hn => exact (hproperty _ hk hn).elim
    · next hk hn => exact (hmethod _ hk hn).elim
    · rfl

theorem objectBody_ends (scope : Scope) (name : Option String) (body : Node) :
    (objectBody scope name body).Ends fun object =>
      object.members.map Member.signpost =
        body.parts.filterMap (Node.memberSite? scope.file) := by
  rw [objectBody]
  refine (Ends.filterMap (entry_ends scope) body.parts).bind fun entries hentries => ?_
  change (entries.filterMap Entry.member?).map Member.signpost = _
  rw [List.map_filterMap, hentries]

end Dialogue

theorem Declaration.ownBody_ends (d : Declaration) :
    (Dialogue.ownBody d.scope d.node d.name).Ends fun object =>
      object.members.map Member.signpost = d.memberSites := by
  rw [Dialogue.ownBody, memberSites]
  cases d.node.child? .body with
  | some body => exact Dialogue.objectBody_ends d.scope (some d.name) body
  | none => exact rfl

namespace TypeTable

def MembersKnown (t : TypeTable) : Nat → TypeId → Prop
  | 0, _ => True
  | levels + 1, id =>
    match t.form id with
    | .pending => False
    | .union parts | .intersection parts => ∀ part ∈ parts, t.MembersKnown levels part
    | _ => True

theorem formMembers_intersection_congr {f g : TypeId → List Member} {parts : List TypeId}
    (h : ∀ part ∈ parts, f part = g part) :
    formMembers f (.intersection parts) = formMembers g (.intersection parts) := by
  simp only [formMembers]
  generalize ([] : List Member) = acc
  induction parts generalizing acc with
  | nil => rfl
  | cons part parts ih =>
    rw [List.foldl_cons, List.foldl_cons, h part List.mem_cons_self]
    exact ih (fun p hp => h p (List.mem_cons_of_mem _ hp)) _

theorem formMembers_union_congr {f g : TypeId → List Member} {parts : List TypeId}
    (h : ∀ part ∈ parts, f part = g part) :
    formMembers f (.union parts) = formMembers g (.union parts) := by
  cases parts with
  | nil => rfl
  | cons first rest =>
    have hrest : rest.map f = rest.map g :=
      List.map_congr_left fun p hp => h p (List.mem_cons_of_mem _ hp)
    simp only [formMembers, h first List.mem_cons_self, hrest]

theorem Fills.membersAt_eq {t u : TypeTable} (h : t.Fills u) {levels : Nat} {id : TypeId}
    (hk : t.MembersKnown levels id) : u.membersAt levels id = t.membersAt levels id := by
  induction levels generalizing id with
  | zero => rfl
  | succ levels ih =>
    have hform : t.form id ≠ .pending := by
      intro hf
      simp only [MembersKnown, hf] at hk
    rw [membersAt, membersAt, h.form_eq hform]
    cases hf : t.form id with
    | union parts =>
      simp only [MembersKnown, hf] at hk
      exact formMembers_union_congr fun part hp => ih (hk part hp)
    | intersection parts =>
      simp only [MembersKnown, hf] at hk
      exact formMembers_intersection_congr fun part hp => ih (hk part hp)
    | _ => simp only [formMembers]

end TypeTable

namespace Program

open Bindings Binder

variable {P : Program}

theorem after_inheritFrom (bind : Binder) (b : Bindings) (scope : Scope) (own : List Member)
    (base : Node) :
    b.after (bind.run do
      let type ← Dialogue.typeOf scope base
      return mergeMembers own (← Dialogue.members type)) =
      let (type, c) := b.after (bind scope base)
      (mergeMembers own (c.table.members type), c) := rfl

theorem after_withBases_cons (bind : Binder) (b : Bindings) (scope : Scope) (own : List Member)
    (base : Node) (bases : List Node) :
    b.after (bind.run (.withBases scope own (base :: bases))) =
      let (type, c) := b.after (bind scope base)
      c.after (bind.run (.withBases scope (mergeMembers own (c.table.members type)) bases)) := by
  rw [Dialogue.withBases, List.foldlM_cons, after_run_bind]
  rfl

theorem after_interfaceBody (bind : Binder) (b : Bindings) (d : Declaration) :
    b.after (bind.run d.interfaceBody) =
      let (object, c) := b.after (bind.run (.ownBody d.scope d.node d.name))
      let (members, c) := c.after (bind.run (.withBases d.scope object.members d.node.baseTypes))
      ({ object with members }, c) := by
  rw [Declaration.interfaceBody, Dialogue.interfaceBody, after_run_bind, after_run_bind]
  rfl

structure Reading where
  type : TypeId
  seen : TypeTable

namespace Reading

def members (r : Reading) : List Member := r.seen.members r.type

def names (r : Reading) : List String := r.seen.memberNames r.type

end Reading

/-- In the run of the dialogue from `b` on, the node was bound with this result. -/
def Reads (P : Program) {α : Type} (levels : Nat) (x : Dialogue α) (b : Bindings) (scope : Scope)
    (n : Node) (r : Reading) : Prop :=
  ∃ s c, (P.binderAt levels).Asks scope n s x b ∧
    s.after (P.binderAt levels scope n) = (r.type, c) ∧ r.seen = c.table

theorem Reads.bind_left {α β : Type} {levels : Nat} {x : Dialogue α} {b : Bindings} {scope : Scope}
    {n : Node} {r : Reading} (h : P.Reads levels x b scope n r) (f : α → Dialogue β) :
    P.Reads levels (x >>= f) b scope n r := by
  obtain ⟨s, c, hasks, hr⟩ := h
  exact ⟨s, c, hasks.bind_left f, hr⟩

theorem Reads.bind_right {α β : Type} {levels : Nat} {x : Dialogue α} {f : α → Dialogue β}
    {b : Bindings} {scope : Scope} {n : Node} {r : Reading}
    (h : P.Reads levels (f (b.after ((P.binderAt levels).run x)).1)
      (b.after ((P.binderAt levels).run x)).2 scope n r) :
    P.Reads levels (x >>= f) b scope n r := by
  obtain ⟨s, c, hasks, hr⟩ := h
  exact ⟨s, c, hasks.bind_right, hr⟩

theorem Reads.fills {α : Type} {levels : Nat} {x : Dialogue α} {b : Bindings} {scope : Scope}
    {n : Node} {r : Reading} (h : P.Reads levels x b scope n r) :
    r.seen.Fills (b.after ((P.binderAt levels).run x)).2.table := by
  obtain ⟨s, c, hasks, hs, hseen⟩ := h
  have hgrows := hasks.grows (P.closed_grows.kept_binderAt levels)
  rw [hs] at hgrows
  exact hseen ▸ hgrows.settles.table

theorem fills_of_reads {α : Type} {levels : Nat} {x : Dialogue α} {b : Bindings} {scope : Scope}
    {ns : List Node} {readings : List Reading}
    (h : List.Forall₂ (P.Reads levels x b scope) ns readings) :
    ∀ r ∈ readings, r.seen.Fills (b.after ((P.binderAt levels).run x)).2.table := by
  induction h with
  | nil => exact List.forall_mem_nil _
  | cons hr _ ih => exact List.forall_mem_cons.2 ⟨hr.fills, ih⟩

theorem exists_readings (levels : Nat) (b : Bindings) (scope : Scope) (own : List Member)
    (bases : List Node) :
    ∃ readings, List.Forall₂ (P.Reads levels (.withBases scope own bases) b scope) bases readings ∧
      (b.after ((P.binderAt levels).run (.withBases scope own bases))).1 =
        readings.foldl (fun ms r => mergeMembers ms r.members) own := by
  induction bases generalizing b own with
  | nil => exact ⟨[], .nil, rfl⟩
  | cons base bases ih =>
    obtain ⟨type, c, hc⟩ : ∃ type c, b.after (P.binderAt levels scope base) = (type, c) :=
      ⟨_, _, rfl⟩
    obtain ⟨readings, hreads, hmembers⟩ := ih c (mergeMembers own (c.table.members type))
    have hcons := after_withBases_cons (P.binderAt levels) b scope own base bases
    rw [hc] at hcons
    refine ⟨⟨type, c.table⟩ :: readings, .cons ⟨b, c, .now, hc, rfl⟩ ?_, ?_⟩
    · refine hreads.imp fun other r hr => ?_
      rw [Dialogue.withBases, List.foldlM_cons]
      refine .bind_right ?_
      rw [after_inheritFrom, hc]
      exact hr
    · rw [hcons]
      exact hmembers

theorem exists_interfaceBody (levels : Nat) (b : Bindings) (d : Declaration) :
    ∃ own readings, own.map Member.signpost = d.memberSites ∧
      List.Forall₂ (P.Reads levels d.interfaceBody b d.scope) d.node.baseTypes readings ∧
      (b.after ((P.binderAt levels).run d.interfaceBody)).1.members =
        readings.foldl (fun ms r => mergeMembers ms r.members) own := by
  have hown := ends_after (P.binderAt levels) d.ownBody_ends b
  obtain ⟨readings, hreads, hmembers⟩ := exists_readings (P := P) levels
    (b.after ((P.binderAt levels).run (.ownBody d.scope d.node d.name))).2 d.scope
    (b.after ((P.binderAt levels).run (.ownBody d.scope d.node d.name))).1.members d.node.baseTypes
  refine ⟨_, readings, hown, hreads.imp fun base r hr => .bind_right (hr.bind_left _), ?_⟩
  rw [after_interfaceBody]
  exact hmembers

theorem members_of_filled {b c : Bindings} {slot : TypeId} {object : ObjectType}
    (hlt : slot < b.table.size) (hopen : b.table.IsOpen slot)
    (h : (b.fillInterface slot object).Settles c) : c.table.members slot = object.members := by
  have hform : (b.fillInterface slot object).table.form slot = .object object :=
    TypeTable.form_of_entry (entry_fillInterface_self hlt hopen object)
  apply TypeTable.members_of_object
  rw [h.table.form_eq (by rw [hform]; simp), hform]

/-- The members of an interface that was bound during the calls: its own in source order, then what
its bases had when they were read for it and it has not itself. A base is inherited completely if it
gained nothing after that but what the interface has anyway, so if nothing in it was open. -/
theorem interface_inherits (hP : P.Numbered) (calls : List P.Call) {d : Declaration}
    (hd : P.Has d) (hkind : d.node.kind = .interfaceDeclaration) {slot : TypeId}
    (hslot : (P.bindingsAfter calls).declared.lookup d.key = some slot) :
    let b := P.bindingsAfter calls
    ∃ levels s readings, P.Meets calls (.declaration levels d) s ∧
      s.declared.lookup d.key = none ∧ s.table.size = slot ∧
      List.Forall₂ (P.Reads levels d.interfaceBody (s.reserve d) d.scope) d.node.baseTypes
        readings ∧
      (∃ own inherited, b.table.members slot = own ++ inherited ∧
        own.map Member.signpost = d.memberSites ∧
        ∀ name, name ∈ inherited.map (·.name) ↔
          name ∉ own.map (·.name) ∧ ∃ r ∈ readings, name ∈ r.names) ∧
      ∀ r ∈ readings,
        ((∀ name ∈ b.table.memberNames r.type, name ∈ b.table.memberNames slot) ↔
          ∀ name ∈ b.table.memberNames r.type, name ∉ r.names →
            name ∈ d.memberSites.map (·.1) ∨ ∃ other ∈ readings, name ∈ other.names) ∧
        (r.seen.MembersKnown TypeTable.memberLevels r.type →
          ∀ name ∈ b.table.memberNames r.type, name ∈ b.table.memberNames slot) := by
  obtain ⟨levels, s, hmeets, hnone, hsize, hlater⟩ := exists_meets hP calls hd hslot
  generalize P.bindingsAfter calls = b at hlater ⊢
  obtain ⟨own, readings, hown, hreads, hbody⟩ :=
    exists_interfaceBody (P := P) levels (s.reserve d) d
  have hgrows := P.kept_grows_run levels d.interfaceBody (s.reserve d)
  have hlt := Nat.lt_of_lt_of_le (size_lt_reserve s d) hgrows.table.size_le
  rw [after_declarationType_of_interface _ hnone hkind, after_interfaceType] at hlater
  have hmembers := members_of_filled hlt hgrows.isOpen hlater.toSettles
  have hfills := (hlater.of_fillInterface hgrows.isOpen).table
  rw [hsize, hbody] at hmembers
  obtain ⟨inherited, happend, hnames⟩ :=
    exists_foldl_mergeMembers Reading.members own readings
  rw [happend] at hmembers
  have hsites : own.map (·.name) = d.memberSites.map (·.1) := by
    rw [← hown, List.map_map]
    rfl
  have hmem (name : String) : name ∈ b.table.memberNames slot ↔
      name ∈ d.memberSites.map (·.1) ∨ ∃ r ∈ readings, name ∈ r.members.map (·.name) := by
    rw [TypeTable.memberNames, hmembers, List.map_append, List.mem_append, hnames, hsites]
    tauto
  refine ⟨levels, s, readings, hmeets, hnone, hsize, hreads,
    ⟨own, inherited, hmembers, hown, hnames⟩, fun r hr => ⟨⟨fun h name hname _ => (hmem name).1 (h name hname), fun h name hname => ?_⟩, ?_⟩⟩
  · rw [hmem]
    by_cases hread : name ∈ r.names
    · exact .inr ⟨r, hr, hread⟩
    · exact h name hname hread
  · intro hknown name hname
    have hsame := ((fills_of_reads hreads r hr).trans hfills).membersAt_eq hknown
    rw [TypeTable.memberNames, TypeTable.members, hsame] at hname
    exact (hmem name).2 (.inr ⟨r, hr, hname⟩)

def ownedModule : SourceModule :=
  .read "src/types.ts"
    ("export interface Item \x7b id: string; owner?: Group \x7d\n" ++
      "export interface Group extends Item \x7b label: string \x7d\n")
    [⟨"program", true, "", ⟨0, 106⟩, 2⟩, ⟨"export_statement", true, "", ⟨0, 51⟩, 2⟩,
     ⟨"export", false, "", ⟨0, 6⟩, 0⟩, ⟨"interface_declaration", true, "declaration", ⟨7, 51⟩, 3⟩,
     ⟨"interface", false, "", ⟨7, 16⟩, 0⟩, ⟨"type_identifier", true, "name", ⟨17, 21⟩, 0⟩,
     ⟨"interface_body", true, "body", ⟨22, 51⟩, 5⟩, ⟨"\x7b", false, "", ⟨22, 23⟩, 0⟩,
     ⟨"property_signature", true, "", ⟨24, 34⟩, 2⟩,
     ⟨"property_identifier", true, "name", ⟨24, 26⟩, 0⟩,
     ⟨"type_annotation", true, "type", ⟨26, 34⟩, 2⟩, ⟨":", false, "", ⟨26, 27⟩, 0⟩,
     ⟨"predefined_type", true, "", ⟨28, 34⟩, 1⟩, ⟨"string", false, "", ⟨28, 34⟩, 0⟩,
     ⟨";", false, "", ⟨34, 35⟩, 0⟩, ⟨"property_signature", true, "", ⟨36, 49⟩, 3⟩,
     ⟨"property_identifier", true, "name", ⟨36, 41⟩, 0⟩, ⟨"?", false, "", ⟨41, 42⟩, 0⟩,
     ⟨"type_annotation", true, "type", ⟨42, 49⟩, 2⟩, ⟨":", false, "", ⟨42, 43⟩, 0⟩,
     ⟨"type_identifier", true, "", ⟨44, 49⟩, 0⟩, ⟨"\x7d", false, "", ⟨50, 51⟩, 0⟩,
     ⟨"export_statement", true, "", ⟨52, 105⟩, 2⟩, ⟨"export", false, "", ⟨52, 58⟩, 0⟩,
     ⟨"interface_declaration", true, "declaration", ⟨59, 105⟩, 4⟩,
     ⟨"interface", false, "", ⟨59, 68⟩, 0⟩, ⟨"type_identifier", true, "name", ⟨69, 74⟩, 0⟩,
     ⟨"extends_type_clause", true, "", ⟨75, 87⟩, 2⟩, ⟨"extends", false, "", ⟨75, 82⟩, 0⟩,
     ⟨"type_identifier", true, "type", ⟨83, 87⟩, 0⟩,
     ⟨"interface_body", true, "body", ⟨88, 105⟩, 3⟩, ⟨"\x7b", false, "", ⟨88, 89⟩, 0⟩,
     ⟨"property_signature", true, "", ⟨90, 103⟩, 2⟩,
     ⟨"property_identifier", true, "name", ⟨90, 95⟩, 0⟩,
     ⟨"type_annotation", true, "type", ⟨95, 103⟩, 2⟩, ⟨":", false, "", ⟨95, 96⟩, 0⟩,
     ⟨"predefined_type", true, "", ⟨97, 103⟩, 1⟩, ⟨"string", false, "", ⟨97, 103⟩, 0⟩,
     ⟨"\x7d", false, "", ⟨104, 105⟩, 0⟩]

def ownedProgram : Program := .ofSources [ownedModule]

theorem numbered_ownedProgram : ownedProgram.Numbered := by
  apply numbered_ofSources
  intro m hm
  rw [List.mem_singleton.1 hm, ownedModule]
  exact SourceModule.numbered_read _ _ _

theorem isSome_resolve?_owned :
    (ownedProgram.resolve? .type 0 "Item").isSome ∧
      (ownedProgram.resolve? .type 0 "Group").isSome := by
  decide +kernel

def itemDeclaration : Declaration := (ownedProgram.resolve? .type 0 "Item").get isSome_resolve?_owned.1

def groupDeclaration : Declaration :=
  (ownedProgram.resolve? .type 0 "Group").get isSome_resolve?_owned.2

theorem has_itemDeclaration : ownedProgram.Has itemDeclaration :=
  has_of_resolve? (Option.some_get isSome_resolve?_owned.1).symm

theorem has_groupDeclaration : ownedProgram.Has groupDeclaration :=
  has_of_resolve? (Option.some_get isSome_resolve?_owned.2).symm

def groupFirst : List ownedProgram.Call := [.declaredType groupDeclaration has_groupDeclaration]

def itemFirst : List ownedProgram.Call := .declaredType itemDeclaration has_itemDeclaration :: groupFirst

theorem group_inherits :
    let b := ownedProgram.bindingsAfter groupFirst
    ∃ slot, b.declared.lookup groupDeclaration.key = some slot ∧
      b.table.memberNames slot = ["label", "id", "owner"] ∧
      ∃ levels s readings, ownedProgram.Meets groupFirst (.declaration levels groupDeclaration) s ∧
        List.Forall₂ (ownedProgram.Reads levels groupDeclaration.interfaceBody
          (s.reserve groupDeclaration) groupDeclaration.scope) groupDeclaration.node.baseTypes
          readings ∧
        ∀ name ∈ ["id", "owner"], ∃ r ∈ readings, name ∈ r.names := by
  have hrun : (ownedProgram.bindingsAfter groupFirst).declared.lookup groupDeclaration.key =
        some 0 ∧
      groupDeclaration.node.kind = .interfaceDeclaration ∧
      (ownedProgram.bindingsAfter groupFirst).table.memberNames 0 = ["label", "id", "owner"] ∧
      groupDeclaration.memberSites.map (·.1) = ["label"] := by
    decide +kernel
  obtain ⟨hslot, hkind, hmembers, hsites⟩ := hrun
  obtain ⟨levels, s, readings, hmeets, -, -, hreads, ⟨own, inherited, happend, hown, hnames⟩, -⟩ :=
    interface_inherits numbered_ownedProgram _ has_groupDeclaration hkind hslot
  refine ⟨0, hslot, hmembers, levels, s, readings, hmeets, hreads, fun name hname => ?_⟩
  have howns : own.map (·.name) = ["label"] := by
    rw [← hsites, ← hown, List.map_map]
    rfl
  rw [TypeTable.memberNames, happend, List.map_append, howns] at hmembers
  have hinherited : inherited.map (·.name) = ["id", "owner"] := (List.cons.inj hmembers).2
  exact ((hnames name).1 (hinherited ▸ hname)).2

/-- Bound after `Item`, which leads to it while it is open, `Group` has no member of its base. -/
theorem group_misses_inherited :
    let b := ownedProgram.bindingsAfter itemFirst
    ∃ item group, b.declared.lookup groupDeclaration.key = some group ∧
      groupDeclaration.node.baseTypes ≠ [] ∧
      (∀ base ∈ groupDeclaration.node.baseTypes,
        (b.after (ownedProgram.typeOf groupDeclaration.file base)).1 = item) ∧
      b.table.memberNames item = ["id", "owner"] ∧ b.table.memberNames group = ["label"] := by
  refine ⟨0, 2, ?_⟩
  decide +kernel

end Program

end PropSchema
