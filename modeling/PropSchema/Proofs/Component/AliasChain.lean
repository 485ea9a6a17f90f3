import PropSchema.Proofs.Binding.Moments
import PropSchema.Proofs.Binding.Order
import PropSchema.Proofs.Component.Annotation

namespace PropSchema

open Bindings Binder

def Watch.free : Watch := ⟨fun _ _ => True, fun _ _ => True, fun _ _ => True⟩

instance (b : Bindings) (q : Question) : Decidable (Watch.free.question b q) := .isTrue trivial

instance (b : Bindings) (x : TypeId) : Decidable (Watch.free.target b x) := .isTrue trivial

instance (owner : Owner) (x : TypeId) : Decidable (Watch.free.made owner x) := .isTrue trivial

theorem Bindings.alias?_of_filled {c e : Bindings} {slot body : TypeId} {name : String}
    (hlt : slot < c.table.size) (hopen : c.table.IsOpen slot)
    (h : (c.fillAlias slot name body).Matures e) :
    (body = slot → e.table.alias? slot = none) ∧
      (body ≠ slot → e.table.alias? slot = some ⟨name, body⟩) := by
  have hlt' : slot < (c.fillAlias slot name body).table.size := by rwa [size_fillAlias]
  constructor
  · rintro rfl
    have hentry := entry_fillAlias_self hlt hopen name
    rw [TypeTable.alias?, h.table.entry_eq hlt', hentry]
    rw [TypeTable.IsOpen, hentry]
    exact fun heq => Form.noConfusion (congrArg Entry.form heq)
  · intro hbody
    have hentry := entry_fillAlias_target hlt hbody name
    rw [TypeTable.alias?, h.table.entry_eq hlt', hentry]
    rw [TypeTable.IsOpen, hentry]
    exact fun heq => Option.some_ne_none _ (congrArg Entry.aliasOf heq)

namespace Program

variable {P : Program} {w : Watch} {b e : Bindings} {d d' : Declaration} {n : Node} {a : TypeId}

def Call.Watched (w : Watch) (b : Bindings) : P.Call → Prop
  | .typeAt file n => P.WatchedAt w bindLevels none b ⟨file, []⟩ n
  | .declaredType d _ => (P.binderAt bindLevels).WatchedDeclaration w (P.WatchedAt w bindLevels) d b

def ServedUnder (w : Watch) (b : Bindings) : List P.Request → Prop
  | [] => True
  | request :: requests => (∀ call ∈ request.call?, call.Watched w b) ∧
    ServedUnder w (b.after (serve (P.binderAt bindLevels) request)).2 requests

def WithinDepth (requests : List P.Request) : Prop := ServedUnder .free {} requests

section Decidable

variable [∀ b q, Decidable (w.question b q)] [∀ b x, Decidable (w.target b x)]
  [∀ o x, Decidable (w.made o x)]

instance Call.decidableWatched (b : Bindings) : (call : P.Call) → Decidable (call.Watched w b)
  | .typeAt file n => inferInstanceAs (Decidable (P.WatchedAt w bindLevels none b ⟨file, []⟩ n))
  | .declaredType _ _ => inferInstanceAs (Decidable (_ → (_ → _) ∧ (_ → _ ∧ (_ → _))))

instance decidableServedUnder :
    (b : Bindings) → (requests : List P.Request) → Decidable (ServedUnder w b requests)
  | _, [] => .isTrue trivial
  | b, request :: requests =>
    have := decidableServedUnder (b.after (serve (P.binderAt bindLevels) request)).2 requests
    inferInstanceAs (Decidable (_ ∧ _))

instance (requests : List P.Request) : Decidable (WithinDepth requests) :=
  inferInstanceAs (Decidable (ServedUnder .free {} requests))

end Decidable

theorem regular_perform (hb : b.Regular) (call : P.Call) : (b.after (P.perform call)).2.Regular :=
  ⟨(P.closed_builds.kept_perform call b).wellMade hb.wellMade,
    P.closed_indexed.kept_perform call b hb.indexed⟩

theorem chronicled_perform (hP : P.Numbered) {call : P.Call} (h : call.Watched w b)
    (hb : b.Regular) (he : (b.after (P.perform call)).2.Matures e) :
    P.Chronicled w e b (b.after (P.perform call)).2 := by
  cases call with
  | typeAt file n => exact chronicled_watchedAt hP h hb he
  | declaredType d hd =>
    exact chronicled_declaration (fun _ _ _ _ => chronicled_watchedAt hP) hP hd h hb he

theorem chronicled_servedFrom (hP : P.Numbered) {requests : List P.Request}
    (h : ServedUnder w b requests) (hb : b.Regular) (he : (servedFrom b requests).Matures e) :
    P.Chronicled w e b (servedFrom b requests) := by
  induction requests generalizing b with
  | nil => exact .of_declared_eq rfl
  | cons request requests ih =>
    obtain ⟨hcall, hrest⟩ := h
    have hlater := (grows_servedFrom (b.after (serve (P.binderAt bindLevels) request)).2 requests)
    rw [servedFrom_cons] at he ⊢
    rw [after_serve] at he hrest hlater ⊢
    cases hrequest : request.call? with
    | none =>
      rw [hrequest] at he hrest
      exact ih hrest hb he
    | some call =>
      rw [hrequest] at he hrest hlater
      have hb' := regular_perform hb call
      apply (chronicled_perform hP (hcall call hrequest) hb (hlater.matures.trans he)).trans
      exact ih hrest hb' he

theorem boundUnder_served (hP : P.Numbered) {requests : List P.Request}
    (h : ServedUnder w {} requests) (hd : P.Has d)
    (ha : (served requests).declared.lookup d.key = some a) :
    P.BoundUnder w (served requests) d :=
  chronicled_servedFrom hP h ⟨.empty, .empty⟩ (Grows.refl _).matures d a hd rfl ha

theorem BoundUnder.alias_bound (h : P.BoundUnder w e d) (hk : d.node.kind = .typeAliasDeclaration)
    (hvalue : d.node.child? .value = some n) (ha : e.declared.lookup d.key = some a) :
    ∃ (levels : Nat) (s : Bindings), let r := s.after (P.binderAt (levels + 1) d.scope n)
      r.2.Matures e ∧ (r.1 = a → e.table.alias? a = none) ∧
        (r.1 ≠ a → e.table.alias? a = some ⟨d.name, r.1⟩) := by
  obtain ⟨levels, s, -, hl, hwatched, hlater⟩ := h
  have hslot := find_of_declarationType levels s d hlater
  have hbody : d.aliasBody = Dialogue.typeOf d.scope n := by
    rw [Declaration.aliasBody, hvalue, Dialogue.orAny]
  have hwatched' := (hwatched.2 hk).1
  have hgrows := P.kept_grows_run levels d.aliasBody (s.reserve d)
  rw [after_declarationType_of_alias _ hl hk, after_aliasType] at hlater hslot
  obtain rfl : a = s.table.size := Option.some.inj (ha.symm.trans hslot)
  rw [hbody] at hwatched' hgrows hlater
  cases levels with
  | zero => exact hwatched'.1.elim
  | succ levels =>
    have hlt := Nat.lt_of_lt_of_le (size_lt_reserve s d) hgrows.table.size_le
    exact ⟨levels, s.reserve d, hlater.of_fillAlias hgrows.isOpen,
      alias?_of_filled hlt hgrows.isOpen hlater⟩

theorem exists_meets_value (hP : P.Numbered) (calls : List P.Call) (hd : P.Has d)
    (hk : d.node.kind = .typeAliasDeclaration) (hvalue : d.node.child? .value = some n)
    (ha : (P.bindingsAfter calls).declared.lookup d.key = some a)
    (hself : ((P.bindingsAfter calls).table.alias? a).isSome) :
    ∃ levels s, P.Meets calls (.node levels d.scope n) s ∧
      (s.after (P.binderAt levels d.scope n)).1 = (P.bindingsAfter calls).table.declared a := by
  obtain ⟨levels, s, hmeets, hnone, rfl, hlater⟩ := exists_meets hP calls hd ha
  have hbody : d.aliasBody = Dialogue.typeOf d.scope n := by
    rw [Declaration.aliasBody, hvalue, Dialogue.orAny]
  have hasks : (P.binderAt levels).Asks d.scope n (s.reserve d) d.aliasBody (s.reserve d) := by
    rw [hbody]
    exact .now
  have hgrows := P.kept_grows_run levels d.aliasBody (s.reserve d)
  have hlt := Nat.lt_of_lt_of_le (size_lt_reserve s d) hgrows.table.size_le
  rw [after_declarationType_of_alias _ hnone hk, after_aliasType] at hlater
  obtain ⟨hcircle, htarget⟩ := alias?_of_filled hlt hgrows.isOpen hlater
  refine ⟨levels, s.reserve d, hmeets.tail (.typeAlias hnone hk hasks), ?_⟩
  rw [hbody] at hcircle htarget
  have hne := fun heq => Option.isSome_iff_ne_none.1 hself (hcircle heq)
  rw [TypeTable.declared, htarget hne]
  rfl

def Names (P : Program) (scope : Scope) (n : Node) (d : Declaration) : Prop :=
  (n.kind = .typeIdentifier ∨ n.kind = .identifier) ∧ n.text ∉ scope.params ∧
    P.resolve? .type scope.file n.text = some d

theorem Names.after_binderAt {scope : Scope} (h : P.Names scope n d) (levels : Nat) (b : Bindings) :
    b.after (P.binderAt (levels + 1) scope n) =
      b.after ((P.binderAt levels).declarationType d) := by
  obtain ⟨hk, hparams, hresolve⟩ := h
  have hmeaning : Dialogue.meaning P scope n = .done (.declaration d) := by
    have hnamed : Dialogue.namedType P scope n.text [] = .done (.declaration d) := by
      rw [Dialogue.namedType, if_neg (by simpa using hparams), hresolve]
      rfl
    rw [Dialogue.meaning]
    obtain hk | hk := hk <;> rw [hk] <;> exact hnamed
  rw [binderAt, nodeType, hmeaning]
  rfl

inductive AliasChain (P : Program) (last : Declaration) (n : Node) :
    Declaration → List Declaration → Prop
  | last : P.Has last → last.node.kind = .typeAliasDeclaration →
    last.node.child? .value = some n → AliasChain P last n last []
  | next {d d' : Declaration} {ds : List Declaration} {m : Node} : P.Has d →
    d.node.kind = .typeAliasDeclaration → d.node.child? .value = some m →
    P.Names d.scope m d' → AliasChain P last n d' ds → AliasChain P last n d (d' :: ds)

namespace AliasChain

variable {last : Declaration} {ds : List Declaration} {z : TypeId}

theorem of_last (h : P.AliasChain last n d ds) : P.AliasChain last n last [] := by
  induction h with
  | last hd hk hvalue => exact .last hd hk hvalue
  | next _ _ _ _ _ ih => exact ih

section Bound

variable (hbound : ∀ {d a}, P.Has d → e.declared.lookup d.key = some a → P.BoundUnder w e d)
  (hz : e.declared.lookup last.key = some z) (hself : (e.table.alias? z).isSome)

include hbound hz hself

theorem alias?_last (h : P.AliasChain last n last []) :
    e.table.alias? z = some ⟨last.name, e.table.declared z⟩ := by
  cases h with
  | last hd hk hvalue =>
    obtain ⟨levels, s, hlater, hnone, hsome⟩ := (hbound hd hz).alias_bound hk hvalue hz
    have hne : (s.after (P.binderAt (levels + 1) last.scope n)).1 ≠ z := by
      intro heq
      rw [hnone heq] at hself
      cases hself
    rw [TypeTable.declared, hsome hne]

theorem exists_target (ht : e.table.WellFormed) (h : P.AliasChain last n d ds)
    (ha : e.declared.lookup d.key = some a) :
    ∃ target, e.table.alias? a = some ⟨d.name, target⟩ ∧ (ds = [] → a = z) ∧
      (∀ second ∈ ds.head?, e.table.display target = second.name) ∧
      (e.table.form a ≠ .pending → e.table.form (e.table.declared z) = e.table.form a) := by
  induction h generalizing a with
  | last hd hk hvalue =>
    obtain rfl : a = z := Option.some.inj (ha.symm.trans hz)
    have halias := alias?_last hbound hz hself (.last hd hk hvalue)
    exact ⟨_, halias, fun _ => rfl, by simp, ht.form_declared⟩
  | @next d d' ds m hd hk hvalue hnames _ ih =>
    obtain ⟨levels, s, hlater, hnone, hsome⟩ := (hbound hd ha).alias_bound hk hvalue ha
    rw [hnames.after_binderAt] at hlater hnone hsome
    have ha' := find_of_declarationType levels s d' hlater
    generalize (s.after ((P.binderAt levels).declarationType d')).1 = a' at ha' hnone hsome
    obtain ⟨target', halias', -, -, hform'⟩ := ih ha'
    have hne : a' ≠ a := by
      rintro rfl
      rw [hnone rfl] at halias'
      cases halias'
    have halias := hsome hne
    refine ⟨a', halias, fun hnil => absurd hnil (List.cons_ne_nil _ _), ?_, fun hform => ?_⟩
    · intro second hsecond
      obtain rfl : d' = second := Option.some.inj hsecond
      exact TypeTable.display_of_alias halias'
    · have hdeclared := ht.form_declared hform
      rw [TypeTable.declared, halias] at hdeclared
      rw [← hdeclared]
      exact hform' (hdeclared ▸ hform)

end Bound

end AliasChain

/-- Annotations that name the first of a chain of aliases denote one type, and the last alias stands
for the type that its node denotes, here one that is no alias and no object. A prop has the same
definition with either type exactly if there is no second alias or its name fits the last type. If
the prop is optional, it has the same definition for all unions, and for other types exactly if they
get the same label once the name of the first alias is written for the whole and that of the second
for the type. -/
theorem alias_chain_prop_iff (hP : P.Numbered) {requests : List P.Request}
    (hdepth : WithinDepth requests) {last : Declaration} {ds : List Declaration}
    (hchain : P.AliasChain last n d ds) {z : TypeId}
    (ha : (served requests).declared.lookup d.key = some a)
    (hz : (served requests).declared.lookup last.key = some z)
    (hself : ((served requests).table.alias? z).isSome)
    (hplain : (served requests).table.alias? ((served requests).table.declared z) = none)
    (hpending : (served requests).table.form a ≠ .pending)
    (hobject : (served requests).table.kind z ≠ .object) :
    let b := served requests
    let t := b.table
    let type := t.declared z
    let kind := (t.form type).kind
    (∀ file m, P.Names ⟨file, []⟩ m d → (b.after (P.typeOf file m)).1 = a) ∧
    (∃ levels s, P.Meets (requests.filterMap Request.call?) (.node levels last.scope n) s ∧
      (s.after (P.binderAt levels last.scope n)).1 = type) ∧
    (∀ name optional, t.propWithin [] name optional a = t.propWithin [] name optional type ↔
      ∀ second ∈ ds.head?, t.LabelFits second.name name optional type) ∧
    ((t.form type).isNullish = false → t.form type ≠ .primitive .never →
      (t.form type).literal? ≠ some "" →
      ∀ name, t.optionalProp name a = t.optionalProp name type ↔ kind = .union ∨
        Label.ofTexts? kind (d.name ++ " | undefined")
            ((ds.head?.map Declaration.name).getD (t.display type)) =
          Label.ofTexts? kind (t.optionalText type) (t.display type)) := by
  intro b t type kind
  have hb : b.Sound := sound_servedFrom .empty requests
  have ht : t.WellFormed := hb.wellFormed (copies_served requests)
  have hbound : ∀ {d a}, P.Has d → b.declared.lookup d.key = some a → P.BoundUnder .free b d :=
    boundUnder_served hP hdepth
  have hmet : ∃ levels s,
      P.Meets (requests.filterMap Request.call?) (.node levels last.scope n) s ∧
        (s.after (P.binderAt levels last.scope n)).1 = type := by
    rw [served_eq_bindingsAfter] at hz hself
    cases hchain.of_last with
    | last hd hk hvalue =>
      have hvalue' := exists_meets_value hP _ hd hk hvalue hz hself
      rwa [← served_eq_bindingsAfter] at hvalue'
  obtain ⟨target, htarget, hnil, hsecond, hform⟩ := hchain.exists_target hbound hz hself ht ha
  have hsame : t.form a = t.form type := (hform hpending).symm
  have hshown : t.display (t.declared type) = t.display type := by
    rw [TypeTable.declared, hplain]
  have hlabel : t.display (t.declared a) =
      (ds.head?.map Declaration.name).getD (t.display type) := by
    cases ds with
    | nil => exact congrArg (fun id => t.display (t.declared id)) (hnil rfl)
    | cons second rest =>
      rw [TypeTable.declared, htarget]
      exact hsecond second rfl
  refine ⟨fun file m hm => ?_, hmet, fun name optional => ?_, fun hnull hnever hempty name => ?_⟩
  · rw [typeOf, bindLevels, hm.after_binderAt, after_declarationType_of_some ha]
  · rw [ht.propWithin_eq_iff hsame (hsame ▸ hpending) hobject, hlabel]
    cases ds with
    | nil => exact iff_of_true (hshown ▸ t.labelFits_display name optional type) (by simp)
    | cons second rest => simp
  · rw [hb.optionalProp_eq_iff ht hsame (hsame ▸ hpending) hobject hnull hnever hempty, hlabel,
      hshown]
    by_cases hunion : kind = .union
    · exact iff_of_true (.inl hunion) (.inl hunion)
    · rw [ht.optionalText_of_alias (TypeTable.lt_size_of_form_ne_pending hpending) (hsame ▸ hunion)
        (hsame ▸ hnull) (hsame ▸ hnever) htarget]

def chains : Program :=
  .ofSources [.read "src/types.ts"
    ("type Title = Caption\ntype Caption = string\n" ++
      "type Size = Scale\ntype Scale = \"s\" | \"m\"\n")
    [⟨"program", true, "", ⟨0, 84⟩, 4⟩, ⟨"type_alias_declaration", true, "", ⟨0, 20⟩, 4⟩,
     ⟨"type", false, "", ⟨0, 4⟩, 0⟩, ⟨"type_identifier", true, "name", ⟨5, 10⟩, 0⟩,
     ⟨"=", false, "", ⟨11, 12⟩, 0⟩, ⟨"type_identifier", true, "value", ⟨13, 20⟩, 0⟩,
     ⟨"type_alias_declaration", true, "", ⟨21, 42⟩, 4⟩, ⟨"type", false, "", ⟨21, 25⟩, 0⟩,
     ⟨"type_identifier", true, "name", ⟨26, 33⟩, 0⟩, ⟨"=", false, "", ⟨34, 35⟩, 0⟩,
     ⟨"predefined_type", true, "value", ⟨36, 42⟩, 1⟩, ⟨"string", false, "", ⟨36, 42⟩, 0⟩,
     ⟨"type_alias_declaration", true, "", ⟨43, 60⟩, 4⟩, ⟨"type", false, "", ⟨43, 47⟩, 0⟩,
     ⟨"type_identifier", true, "name", ⟨48, 52⟩, 0⟩, ⟨"=", false, "", ⟨53, 54⟩, 0⟩,
     ⟨"type_identifier", true, "value", ⟨55, 60⟩, 0⟩,
     ⟨"type_alias_declaration", true, "", ⟨61, 83⟩, 4⟩, ⟨"type", false, "", ⟨61, 65⟩, 0⟩,
     ⟨"type_identifier", true, "name", ⟨66, 71⟩, 0⟩, ⟨"=", false, "", ⟨72, 73⟩, 0⟩,
     ⟨"union_type", true, "value", ⟨74, 83⟩, 3⟩, ⟨"literal_type", true, "", ⟨74, 77⟩, 1⟩,
     ⟨"string", true, "", ⟨74, 77⟩, 3⟩, ⟨"\"", false, "", ⟨74, 75⟩, 0⟩,
     ⟨"string_fragment", true, "", ⟨75, 76⟩, 0⟩, ⟨"\"", false, "", ⟨76, 77⟩, 0⟩,
     ⟨"|", false, "", ⟨78, 79⟩, 0⟩, ⟨"literal_type", true, "", ⟨80, 83⟩, 1⟩,
     ⟨"string", true, "", ⟨80, 83⟩, 3⟩, ⟨"\"", false, "", ⟨80, 81⟩, 0⟩,
     ⟨"string_fragment", true, "", ⟨81, 82⟩, 0⟩, ⟨"\"", false, "", ⟨82, 83⟩, 0⟩]]

theorem numbered_chains : chains.Numbered := by
  apply numbered_ofSources
  intro m hm
  rw [List.mem_singleton.1 hm]
  exact SourceModule.numbered_read _ _ _

def chainRequests : List chains.Request := chains.requestsFor 0 ["Title", "Size"]

theorem isSome_resolve?_chains :
    (chains.resolve? .type 0 "Size").isSome ∧ (chains.resolve? .type 0 "Scale").isSome := by
  decide +kernel

def sizeDeclaration : Declaration := (chains.resolve? .type 0 "Size").get isSome_resolve?_chains.1

def scaleDeclaration : Declaration := (chains.resolve? .type 0 "Scale").get isSome_resolve?_chains.2

theorem isSome_value_scale : (scaleDeclaration.node.child? .value).isSome := by
  decide +kernel

def scaleNode : Node := (scaleDeclaration.node.child? .value).get isSome_value_scale

theorem aliasChain_size :
    chains.AliasChain scaleDeclaration scaleNode sizeDeclaration [scaleDeclaration] := by
  have hsize : chains.resolve? .type 0 "Size" = some sizeDeclaration :=
    (Option.some_get isSome_resolve?_chains.1).symm
  have hscale : chains.resolve? .type 0 "Scale" = some scaleDeclaration :=
    (Option.some_get isSome_resolve?_chains.2).symm
  have hsyntax : sizeDeclaration.node.kind = .typeAliasDeclaration ∧
      scaleDeclaration.node.kind = .typeAliasDeclaration ∧ sizeDeclaration.scope = ⟨0, []⟩ ∧
      (sizeDeclaration.node.child? .value).map (fun m => (m.kind, m.text)) =
        some (.typeIdentifier, "Scale") := by
    decide +kernel
  obtain ⟨hk, hk', hscope, hvalue⟩ := hsyntax
  obtain ⟨m, hm, heq⟩ := Option.map_eq_some_iff.1 hvalue
  obtain ⟨hkind, htext⟩ := Prod.mk.inj heq
  refine .next (has_of_resolve? hsize) hk hm ⟨.inl hkind, ?_, ?_⟩
    (.last (has_of_resolve? hscale) hk' (Option.some_get isSome_value_scale).symm)
  · rw [hscope]
    exact List.not_mem_nil
  · rw [hscope, htext, hscale]

theorem served_chains :
    let b := served chainRequests
    let t := b.table
    WithinDepth chainRequests ∧ b.declared.lookup sizeDeclaration.key = some 3 ∧
      b.declared.lookup scaleDeclaration.key = some 4 ∧ t.alias? 3 = some ⟨"Size", 4⟩ ∧
      t.alias? 4 = some ⟨"Scale", 7⟩ ∧ t.alias? 7 = none ∧ t.form 3 = .union [5, 6] ∧
      t.form 7 = .union [5, 6] ∧ ¬ t.isAtomic 7 ∧ ¬ Label.isAtomic scaleDeclaration.name := by
  decide +kernel

theorem size_is_transparent :
    let t := (served chainRequests).table
    t.alias? 3 = some ⟨"Size", 4⟩ ∧ t.alias? 4 = some ⟨"Scale", 7⟩ ∧
      t.propWithin [] "size" false 3 = t.propWithin [] "size" false 7 ∧
      t.optionalProp "size" 3 = t.optionalProp "size" 7 := by
  obtain ⟨hdepth, ha, hz, hsize, hscale, hplain, hform, hunion, htext, hname⟩ := served_chains
  have htype : (served chainRequests).table.declared 4 = 7 := by rw [TypeTable.declared, hscale]
  obtain ⟨-, -, hprop, hoptional⟩ := alias_chain_prop_iff numbered_chains hdepth aliasChain_size
    ha hz (by rw [hscale, Option.isSome_some]) (by rw [htype, hplain])
    (by rw [hform]; exact Form.noConfusion)
    (by rw [TypeTable.kind, htype, hunion]; exact TypeKind.noConfusion)
  rw [htype] at hprop hoptional
  have htextual : ¬ ((served chainRequests).table.form 7).kind.isTextual := by
    rw [hunion]
    exact Bool.false_ne_true
  refine ⟨hsize, hscale, (hprop "size" false).2 ?_, ?_⟩
  · rw [List.head?_cons]
    intro second hsecond
    obtain rfl := Option.mem_some.1 hsecond
    exact ⟨fun h => absurd h htextual, fun _ h => absurd h hname, fun _ _ h => absurd h htext⟩
  · rw [hunion] at hoptional
    exact (hoptional rfl Form.noConfusion (Option.some_ne_none _).symm "size").2 (.inl rfl)

/-- The same prop of type `string` is labelled with the name of the second alias. -/
theorem title_is_labelled_caption :
    let t := (served chainRequests).table
    t.alias? 0 = some ⟨"Title", 1⟩ ∧ t.alias? 1 = some ⟨"Caption", 2⟩ ∧
      t.form 2 = .primitive .string ∧
      (t.propWithin [] "title" false 0).map (·.type) = some "Caption" ∧
      (t.propWithin [] "title" false 2).map (·.type) = some "string" := by
  decide +kernel

end Program

end PropSchema
