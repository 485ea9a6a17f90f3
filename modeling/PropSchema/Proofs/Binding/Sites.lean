import PropSchema.Proofs.Binding.Contract
import PropSchema.Proofs.Binding.WellMade

namespace PropSchema

namespace TypeTable

variable {t : TypeTable}

def IsUndefined (t : TypeTable) (id : TypeId) : Prop :=
  t.interned.lookup (.primitive .undefined) = some id

def AllowsUndefined (t : TypeTable) (id : TypeId) : Prop :=
  t.IsUndefined id ∨
    ∃ parts, (t.entry id).form = .union parts ∧ ∃ part ∈ parts, t.IsUndefined part

def SiteFits (t : TypeTable) (m : Member) : Prop :=
  (m.optional = false → m.site = m.declared) ∧ (m.optional = true → t.AllowsUndefined m.site)

def FormFits (t : TypeTable) : Form → Prop
  | .object type => ∀ m ∈ type.members, t.SiteFits m
  | _ => True

end TypeTable

open TypeTable

theorem mem_mergeMembers {own extra : List Member} {m : Member} (h : m ∈ mergeMembers own extra) :
    m ∈ own ∨ m ∈ extra := by
  induction extra generalizing own with
  | nil => exact .inl h
  | cons first extra ih =>
    obtain h | h := ih h
    · dsimp only at h
      split at h
      · exact .inl h
      · obtain h | h := List.mem_append.1 h
        · exact .inl h
        · exact .inr (List.mem_singleton.1 h ▸ List.mem_cons_self)
    · exact .inr (List.mem_cons_of_mem first h)

theorem TypeTable.siteFits_of_members {t u : TypeTable} (h : ∀ id, u.FormFits (t.form id))
    (levels : Nat) (id : TypeId) : ∀ m ∈ t.membersAt levels id, u.SiteFits m := by
  induction levels generalizing id with
  | zero => exact fun m hm => absurd hm List.not_mem_nil
  | succ levels ih =>
    have hform := h id
    rw [membersAt]
    generalize t.form id = f at hform ⊢
    cases f with
    | object type => exact hform
    | union parts =>
      cases parts with
      | nil => exact fun m hm => absurd hm List.not_mem_nil
      | cons first rest => exact fun m hm => ih first m (List.mem_filter.1 hm).1
    | intersection parts =>
      apply List.foldlRecOn (motive := fun acc => ∀ m ∈ acc, u.SiteFits m)
      · exact fun m hm => absurd hm List.not_mem_nil
      · intro acc hacc part _ m hm
        exact (mem_mergeMembers hm).elim (hacc m) (ih part m)
    | _ => exact fun m hm => absurd hm List.not_mem_nil

namespace Question

def Fits (t : TypeTable) : Question → Prop
  | .add f _ | .intern f _ => t.FormFits f
  | _ => True

def Grants (t : TypeTable) : (q : Question) → q.Answer → Prop
  | .intern f _, id => t.interned.lookup f = some id
  | .union types, id => (∃ type ∈ types, t.IsUndefined type) → t.AllowsUndefined id
  | .members _, ms => ∀ m : Member, List.Mem m ms → t.SiteFits m
  | _, _ => True

end Question

def TypeTable.siteContract (t : TypeTable) : Contract := ⟨Question.Fits t, Question.Grants t⟩

namespace Dialogue

variable {t : TypeTable}

theorem keeps_typeOf (scope : Scope) (n : Node) : (typeOf scope n).Keeps t.siteContract fun _ => True :=
  ⟨True.intro, fun _ _ => True.intro⟩

theorem keeps_add {f : Form} {plain : f.isPlain} (hf : t.FormFits f) :
    (add f plain).Keeps t.siteContract fun _ => True :=
  ⟨hf, fun _ _ => True.intro⟩

theorem keeps_intern {f : Form} {plain : f.isPlain} (hf : t.FormFits f) :
    (intern f plain).Keeps t.siteContract fun id => t.interned.lookup f = some id :=
  ⟨hf, fun _ h => h⟩

theorem keeps_union (types : List TypeId) : (union types).Keeps t.siteContract fun id =>
    (∃ type ∈ types, t.IsUndefined type) → t.AllowsUndefined id :=
  ⟨True.intro, fun _ h => h⟩

theorem keeps_members (type : TypeId) :
    (members type).Keeps t.siteContract fun ms => ∀ m ∈ ms, t.SiteFits m :=
  ⟨True.intro, fun _ h => h⟩

theorem keeps_optional (declared : TypeId) : (optional declared).Keeps t.siteContract t.AllowsUndefined := by
  apply (keeps_intern (f := .primitive .undefined) True.intro).bind
  intro undefined hundefined
  apply (keeps_union [declared, undefined]).bind (f := .done)
  intro site hsite
  exact hsite ⟨undefined, by simp, hundefined⟩

theorem keeps_orAny (scope : Scope) (n : Option Node) : (orAny scope n).Keeps t.siteContract fun _ => True := by
  cases n with
  | none => exact (keeps_intern (f := .primitive .any) True.intro).trivial
  | some n => exact keeps_typeOf scope n

theorem keeps_opaqueType (n : Node) : (opaqueType n).Keeps t.siteContract fun _ => True :=
  keeps_add True.intro

theorem keeps_literal {f : Form} {plain : f.isPlain} (hf : t.FormFits f) :
    (intern f plain).Keeps t.siteContract fun _ => True :=
  (keeps_intern hf).trivial

theorem keeps_literalType (n : Node) : (literalType n).Keeps t.siteContract fun _ => True := by
  rw [literalType]
  split
  · exact keeps_opaqueType n
  split
  · exact keeps_literal True.intro
  · split
    · exact keeps_literal True.intro
    · exact keeps_opaqueType n
  · split
    · exact keeps_literal True.intro
    · exact keeps_opaqueType n
  · exact keeps_literal True.intro
  · exact keeps_literal True.intro
  · exact keeps_literal True.intro
  · exact keeps_literal True.intro
  · exact keeps_opaqueType n

theorem keeps_keywordType (n : Node) : (keywordType n).Keeps t.siteContract fun _ => True := by
  rw [keywordType]
  split
  · refine (keeps_literal (f := .booleanLiteral false) True.intro).bind fun no _ => ?_
    refine (keeps_literal (f := .booleanLiteral true) True.intro).bind fun yes _ => ?_
    exact (keeps_union [no, yes]).trivial
  · exact keeps_literal True.intro

theorem keeps_member (scope : Scope) (n : Node) (name : String) (declared : TypeId) :
    (member scope n name declared).Keeps t.siteContract t.SiteFits := by
  rw [member]
  split
  · next hmark =>
    refine (keeps_optional declared).bind fun site hsite => ⟨fun hfalse => ?_, fun _ => hsite⟩
    rw [hmark] at hfalse
    cases hfalse
  · next hmark =>
    exact ⟨fun _ => rfl, fun htrue => absurd htrue hmark⟩

theorem keeps_signature (scope : Scope) (n : Node) :
    (signature scope n).Keeps t.siteContract fun _ => True := by
  rw [signature]
  refine (Keeps.mapM_trivial fun p _ => ?_).bind fun params _ => ?_
  · exact (keeps_orAny _ _).bind fun type _ => True.intro
  · exact (keeps_orAny _ _).bind fun returns _ => True.intro

theorem keeps_entry (scope : Scope) (n : Node) :
    (entry scope n).Keeps t.siteContract fun e => ∀ m, e.member? = some m → t.SiteFits m := by
  have hmember : ∀ name declared, (do return Entry.member (← member scope n name declared)).Keeps t.siteContract
      fun e : Entry => ∀ m, e.member? = some m → t.SiteFits m := by
    intro name declared
    refine (keeps_member scope n name declared).bind fun m hm m' heq => ?_
    exact Option.some.inj heq ▸ hm
  rw [entry]
  split
  · exact (keeps_orAny scope _).bind fun declared _ => hmember _ declared
  · refine (keeps_signature scope n).bind fun s _ => ?_
    exact (keeps_add (f := .function s) True.intro).bind fun declared _ => hmember _ declared
  · exact (keeps_signature scope n).bind fun s _ m heq => (Option.some_ne_none m heq.symm).elim
  · exact fun m heq => (Option.some_ne_none m heq.symm).elim

theorem keeps_objectBody (scope : Scope) (name : Option String) (body : Node) :
    (objectBody scope name body).Keeps t.siteContract fun o => ∀ m ∈ o.members, t.SiteFits m := by
  refine (Keeps.mapM fun n _ => keeps_entry scope n).bind fun entries hentries m hm => ?_
  obtain ⟨e, he, heq⟩ := List.mem_filterMap.1 hm
  exact hentries e he m heq

theorem keeps_withBases (scope : Scope) {own : List Member} (h : ∀ m ∈ own, t.SiteFits m)
    (bases : List Node) :
    (withBases scope own bases).Keeps t.siteContract fun ms => ∀ m ∈ ms, t.SiteFits m := by
  induction bases generalizing own with
  | nil => exact h
  | cons base bases ih =>
    rw [withBases, List.foldlM_cons]
    have hstep : (do return mergeMembers own (← members (← typeOf scope base))).Keeps t.siteContract
        fun ms => ∀ m ∈ ms, t.SiteFits m := by
      refine (keeps_typeOf scope base).bind fun type _ => ?_
      refine (keeps_members type).bind fun ms hms m hm => ?_
      exact (mem_mergeMembers hm).elim (h m) (hms m)
    exact hstep.bind fun inherited hinherited => ih hinherited

theorem keeps_interfaceBody (scope : Scope) (n : Node) (name : String) :
    (interfaceBody scope n name).Keeps t.siteContract fun o => ∀ m ∈ o.members, t.SiteFits m := by
  have hown : (ownBody scope n name).Keeps t.siteContract fun o => ∀ m ∈ o.members, t.SiteFits m := by
    rw [ownBody]
    split
    · exact keeps_objectBody scope _ _
    · exact fun m hm => absurd hm List.not_mem_nil
  refine hown.bind fun object hobject => ?_
  exact (keeps_withBases scope hobject n.baseTypes).bind fun ms hms => hms

theorem keeps_memberOptional (m : Member) : (memberOptional m).Keeps t.siteContract t.SiteFits :=
  (keeps_optional m.declared).bind fun _ hsite =>
    ⟨fun hfalse => Bool.noConfusion hfalse, fun _ => hsite⟩

theorem keeps_utilityMembers {ms : List Member} (hms : ∀ m ∈ ms, t.SiteFits m) (u : Utility)
    (args : List TypeId) : (utilityMembers ms u args).Keeps t.siteContract
      fun found => ∀ rs, found = some rs → ∀ m ∈ rs, t.SiteFits m := by
  have hsome : ∀ rs : List Member, (∀ m ∈ rs, t.SiteFits m) →
      ∀ rs', some rs = some rs' → ∀ m ∈ rs', t.SiteFits m := by
    intro rs hrs rs' heq
    exact Option.some.inj heq ▸ hrs
  have hfilter : ∀ p : Member → Bool, ∀ m ∈ ms.filter p, t.SiteFits m :=
    fun p m hm => hms m (List.mem_filter.1 hm).1
  rw [utilityMembers.eq_def]
  split
  · exact (Keeps.mapM fun m _ => keeps_memberOptional m).bind hsome
  · apply hsome
    intro m hm
    obtain ⟨m', -, rfl⟩ := List.mem_map.1 hm
    exact ⟨fun _ => rfl, fun htrue => Bool.noConfusion htrue⟩
  · exact hsome ms hms
  · exact ⟨True.intro, fun names _ => hsome _ (hfilter _)⟩
  · exact ⟨True.intro, fun names _ => hsome _ (hfilter _)⟩
  · exact fun rs heq => (Option.some_ne_none rs heq.symm).elim

theorem keeps_utility (u : Utility) (args : List TypeId) :
    (utility u args).Keeps t.siteContract fun _ => True := by
  rw [utility.eq_def]
  split
  · exact True.intro
  · next first rest =>
    refine (keeps_members first).bind fun ms hms => ?_
    split
    · exact True.intro
    refine (keeps_utilityMembers hms u _).bind fun found hfound => ?_
    cases found with
    | none => exact True.intro
    | some rs =>
      refine (Keeps.mapM_trivial fun type _ => ?_).bind fun texts _ => ?_
      · exact ⟨True.intro, fun _ _ => True.intro⟩
      · exact (keeps_add (f := .object ⟨_, rs, []⟩) (hfound rs rfl)).bind fun id _ => True.intro

theorem keeps_utilityOrReference (name : String) (args : List TypeId) :
    (utilityOrReference name args).Keeps t.siteContract fun _ => True := by
  rw [utilityOrReference]
  split
  · exact keeps_add True.intro
  · refine (keeps_utility _ args).bind fun found _ => ?_
    cases found with
    | none => exact keeps_add True.intro
    | some type => exact True.intro

theorem keeps_globalType (name : String) (args : List TypeId) :
    (globalType name args).Keeps t.siteContract fun _ => True := by
  unfold globalType
  split
  · exact keeps_literal True.intro
  · exact keeps_literal True.intro
  · exact keeps_utilityOrReference name args

theorem keeps_namedType (P : Program) (scope : Scope) (name : String) (args : List TypeId) :
    (namedType P scope name args).Keeps t.siteContract fun _ => True := by
  rw [namedType]
  split
  · exact (keeps_add (f := .typeParameter name) True.intro).bind fun _ _ => True.intro
  split
  · exact True.intro
  · exact (keeps_globalType name args).bind fun _ _ => True.intro

theorem keeps_types (scope : Scope) (ns : List Node) :
    (ns.mapM (typeOf scope)).Keeps t.siteContract fun _ => True :=
  Keeps.mapM_trivial fun n _ => keeps_typeOf scope n

theorem keeps_genericType (P : Program) (scope : Scope) (n : Node) :
    (genericType P scope n).Keeps t.siteContract fun _ => True := by
  refine (keeps_types scope _).bind fun args _ => ?_
  split
  · exact (keeps_opaqueType n).bind fun _ _ => True.intro
  split
  · exact (keeps_add (f := .reference _ args) True.intro).bind fun _ _ => True.intro
  · exact keeps_namedType P scope _ args

theorem keeps_structuralType (scope : Scope) (n : Node) :
    (structuralType scope n).Keeps t.siteContract fun _ => True := by
  rw [structuralType]
  split
  · exact keeps_orAny scope _
  · exact keeps_orAny scope _
  · exact keeps_orAny scope _
  · exact keeps_keywordType n
  · exact keeps_literalType n
  · exact keeps_literal True.intro
  · exact keeps_literal True.intro
  · exact keeps_literal True.intro
  · exact (keeps_objectBody scope none n).bind fun object hobject => keeps_add hobject
  · exact (keeps_orAny scope _).bind fun element _ => keeps_literal True.intro
  · refine (Keeps.mapM_trivial fun e _ => ?_).bind fun elements _ => ?_
    · exact (keeps_orAny scope _).bind fun _ _ => True.intro
    · exact keeps_add True.intro
  · exact (keeps_types scope _).bind fun types _ => (keeps_union types).trivial
  · exact (keeps_types scope _).bind fun types _ => ⟨True.intro, fun _ _ => True.intro⟩
  · exact (keeps_signature scope n).bind fun s _ => keeps_add True.intro
  · exact keeps_opaqueType n

theorem keeps_meaning (P : Program) (scope : Scope) (n : Node) :
    (meaning P scope n).Keeps t.siteContract fun _ => True := by
  rw [meaning]
  split
  · exact keeps_namedType P scope _ []
  · exact keeps_namedType P scope _ []
  · exact keeps_genericType P scope n
  · exact (keeps_structuralType scope n).bind fun _ _ => True.intro

end Dialogue

namespace TypeTable

variable {t u : TypeTable} {id : TypeId}

theorem formFits_formAt (h : ∀ id, u.FormFits (t.entry id).form) (hops : Nat) (id : TypeId) :
    u.FormFits (t.formAt hops id) := by
  induction hops generalizing id with
  | zero => exact h id
  | succ hops ih =>
    rw [formAt]
    split
    · split
      · trivial
      · exact ih _
    · exact h id

theorem mem_constituents_of_isUndefined (h : t.Fills u) (hu : u.InternSound)
    (hid : u.IsUndefined id) : id ∈ t.constituents id := by
  obtain ⟨-, heq⟩ := hu _ _ hid
  rw [constituents]
  by_cases hopen : t.IsOpen id
  · rw [form_of_entry hopen]
    exact List.mem_singleton_self id
  · have hlt : id < t.size := by
      apply Nat.lt_of_not_le
      intro hle
      exact hopen (entry_of_size_le hle)
    rw [form_of_entry ((h.entry_eq hlt hopen).symm.trans heq)]
    exact List.mem_singleton_self id

end TypeTable

namespace Bindings

def FitsIn (c b : Bindings) : Prop := ∀ id, c.table.FormFits (b.table.entry id).form

variable {b c : Bindings}

theorem FitsIn.addForm (h : c.FitsIn b) {f : Form} (hf : c.table.FormFits f) :
    c.FitsIn { b with table := (b.table.addForm f).2 } := by
  intro id
  obtain heq | ⟨-, heq⟩ := b.table.entry_addForm_cases f id
  · exact heq ▸ h id
  · exact heq ▸ hf

theorem FitsIn.intern (h : c.FitsIn b) {f : Form} (hf : c.table.FormFits f) :
    c.FitsIn { b with table := (b.table.intern f).2 } := by
  cases hl : b.table.interned.lookup f with
  | some id =>
    rw [TypeTable.intern_of_lookup hl]
    exact h
  | none =>
    rw [TypeTable.intern_of_lookup_none hl]
    exact h.addForm hf

theorem FitsIn.setForm (h : c.FitsIn b) (slot : TypeId) {f : Form} (hf : c.table.FormFits f) :
    c.FitsIn { b with table := b.table.setForm slot f } := by
  intro id
  obtain heq | heq := b.table.entry_setForm_cases slot f id
  · exact heq ▸ h id
  · exact heq ▸ hf

theorem FitsIn.fillAlias (h : c.FitsIn b) (slot : TypeId) (name : String) (body : TypeId) :
    c.FitsIn (b.fillAlias slot name body) := by
  rw [Bindings.fillAlias]
  split
  · exact h.setForm slot (f := .primitive .any) trivial
  · intro id
    obtain heq | heq := b.table.entry_setAlias_cases slot name body id
    · exact heq ▸ h id
    · exact heq ▸ TypeTable.formFits_formAt h _ _

end Bindings

namespace Binder

open Bindings

variable {α : Type} {c : Bindings} {bind : Binder}

theorem yields_intern {f : Form} (hf : c.table.FormFits f) :
    Yields c.FitsIn (·.Settles c) (onTable (·.intern f))
      fun id => c.table.interned.lookup f = some id := by
  intro b hb hend
  rw [after_onTable] at hend ⊢
  exact ⟨hb.intern hf, hend.table.lookup_eq (TypeTable.lookup_intern b.table f)⟩

theorem yields_union (hc : c.table.InternSound) (types : List TypeId) :
    Yields c.FitsIn (·.Settles c) (onTable (·.union types)) fun id =>
      (∃ type ∈ types, c.table.IsUndefined type) → c.table.AllowsUndefined id := by
  intro b hb hend
  rw [after_onTable] at hend ⊢
  have hfills : b.table.Fills c.table := (b.table.grows_union types).fills.trans hend.table
  have hpart : ∀ type ∈ types, c.table.IsUndefined type →
      type ∈ (types.flatMap b.table.constituents).eraseDups := by
    intro type hmem htype
    apply List.mem_eraseDups.2
    apply List.mem_flatMap.2
    exact ⟨type, hmem, TypeTable.mem_constituents_of_isUndefined hfills hc htype⟩
  obtain ⟨hnil, heq⟩ | ⟨one, hone, heq⟩ | ⟨-, heq⟩ := b.table.union_cases types
  · rw [heq]
    refine ⟨hb.intern (f := .primitive .never) trivial, ?_⟩
    rintro ⟨type, hmem, htype⟩
    rw [hnil] at hpart
    exact absurd (hpart type hmem htype) List.not_mem_nil
  · rw [heq]
    refine ⟨hb, ?_⟩
    rintro ⟨type, hmem, htype⟩
    rw [hone] at hpart
    exact .inl (List.mem_singleton.1 (hpart type hmem htype) ▸ htype)
  · rw [heq] at hend ⊢
    obtain ⟨hinv, hid⟩ := yields_intern (f := .union _) trivial b hb hend
    refine ⟨hinv, ?_⟩
    rintro ⟨type, hmem, htype⟩
    exact .inr ⟨_, congrArg Entry.form (hc _ _ hid).2, type, hpart type hmem htype, htype⟩

theorem yields_answer (hc : c.table.InternSound)
    (hbind : ∀ scope n, Yields c.FitsIn (·.Settles c) (bind scope n) fun _ => True) (q : Question)
    (hq : q.Fits c.table) :
    Yields c.FitsIn (·.Settles c) (bind.answer q) (q.Grants c.table) := by
  cases q with
  | type scope n => exact hbind scope n
  | add f plain => exact fun b hb _ => ⟨hb.addForm hq, trivial⟩
  | intern f plain => exact yields_intern hq
  | union types => exact yields_union hc types
  | intersection types =>
    intro b hb _
    refine ⟨?_, trivial⟩
    change c.FitsIn { b with table := (b.table.intersection types).2 }
    obtain ⟨one, -, heq⟩ | heq := b.table.intersection_cases types
    · rw [heq]
      exact hb
    · rw [heq]
      exact hb.addForm (f := .intersection _) trivial
  | members type =>
    exact fun b hb _ => ⟨hb, TypeTable.siteFits_of_members (TypeTable.formFits_formAt hb _) _ _⟩
  | keyNames keys => exact fun b hb _ => ⟨hb, trivial⟩
  | display type => exact fun b hb _ => ⟨hb, trivial⟩

end Binder

theorem Program.yielding_fitsIn (P : Program) {c : Bindings} (hc : c.table.InternSound) :
    P.Yielding (fun _ _ => True) c.FitsIn (·.Settles c) (fun _ => True)
      fun o => ∀ m ∈ o.members, c.table.SiteFits m where
  has _ := trivial
  foreseen := .trans
  any b hb hend := ⟨(Binder.yields_intern (f := .primitive .any) trivial b hb hend).1, trivial⟩
  meaning hgrows hbind scope n _ b hb hend :=
    ⟨(Binder.yields_run .trans hgrows (Binder.yields_answer hc fun scope n => hbind scope n trivial)
      (Dialogue.keeps_meaning P scope n) b hb hend).1, fun _ _ => trivial⟩
  interfaceBody hgrows hbind d _ _ :=
    Binder.yields_run .trans hgrows (Binder.yields_answer hc fun scope n => hbind scope n trivial)
      (Dialogue.keeps_interfaceBody d.scope d.node d.name)
  aliasBody hgrows hbind d _ :=
    Binder.yields_run .trans hgrows (Binder.yields_answer hc fun scope n => hbind scope n trivial)
      (Dialogue.keeps_orAny d.scope (d.node.child? .value))
  declared _ _ := trivial
  declare {b d f} hb hf _ := by
    refine ⟨hb.addForm ?_, trivial⟩
    obtain rfl | rfl := hf
    · trivial
    · rw [Declaration.leafForm]
      split
      · trivial
      · trivial
  fillInterface slot hb ho := hb.setForm slot (f := .object _) ho
  fillAlias slot name hb _ := hb.fillAlias slot name _

end PropSchema
