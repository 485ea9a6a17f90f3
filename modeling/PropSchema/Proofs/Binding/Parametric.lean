import PropSchema.Proofs.Ty.Embedding

namespace PropSchema

open Relabelled

namespace Dialogue

variable {α β γ : Type} [Relabelled α] [Relabelled β] {ρ : Relabelling}

/-- The two dialogues ask the same, and however the relabelling grows with the answers, they go on
alike. -/
inductive Alike {α : Type} [Relabelled α] : Relabelling → Dialogue α → Dialogue α → Prop
  | done {ρ : Relabelling} {a b : α} (h : ρ.Takes a b) : Alike ρ (.done a) (.done b)
  | type {ρ : Relabelling} {scope : Scope} {n : Node} {next next' : TypeId → Dialogue α}
    (h : ∀ ρ' ≥ ρ, ∀ x y, ρ'.Takes x y → Alike ρ' (next x) (next' y)) :
    Alike ρ (.ask (.type scope n) next) (.ask (.type scope n) next')
  | add {ρ : Relabelling} {f f' : Form} {plain : f.isPlain} {plain' : f'.isPlain}
    {next next' : TypeId → Dialogue α} (hf : ρ.Takes f f')
    (h : ∀ ρ' ≥ ρ, ∀ x y, ρ'.Takes x y → Alike ρ' (next x) (next' y)) :
    Alike ρ (.ask (.add f plain) next) (.ask (.add f' plain') next')
  | intern {ρ : Relabelling} {f f' : Form} {plain : f.isPlain} {plain' : f'.isPlain}
    {next next' : TypeId → Dialogue α} (hf : ρ.Takes f f')
    (h : ∀ ρ' ≥ ρ, ∀ x y, ρ'.Takes x y → Alike ρ' (next x) (next' y)) :
    Alike ρ (.ask (.intern f plain) next) (.ask (.intern f' plain') next')
  | union {ρ : Relabelling} {types types' : List TypeId} {next next' : TypeId → Dialogue α}
    (htypes : ρ.Takes types types')
    (h : ∀ ρ' ≥ ρ, ∀ x y, ρ'.Takes x y → Alike ρ' (next x) (next' y)) :
    Alike ρ (.ask (.union types) next) (.ask (.union types') next')
  | intersection {ρ : Relabelling} {types types' : List TypeId}
    {next next' : TypeId → Dialogue α} (htypes : ρ.Takes types types')
    (h : ∀ ρ' ≥ ρ, ∀ x y, ρ'.Takes x y → Alike ρ' (next x) (next' y)) :
    Alike ρ (.ask (.intersection types) next) (.ask (.intersection types') next')
  | members {ρ : Relabelling} {type type' : TypeId} {next next' : List Member → Dialogue α}
    (htype : ρ.Takes type type')
    (h : ∀ ρ' ≥ ρ, ∀ ms ms', ρ'.Takes ms ms' → Alike ρ' (next ms) (next' ms')) :
    Alike ρ (.ask (.members type) next) (.ask (.members type') next')
  | keyNames {ρ : Relabelling} {keys keys' : TypeId} {next next' : List String → Dialogue α}
    (hkeys : ρ.Takes keys keys') (h : ∀ ρ' ≥ ρ, ∀ names, Alike ρ' (next names) (next' names)) :
    Alike ρ (.ask (.keyNames keys) next) (.ask (.keyNames keys') next')
  | display {ρ : Relabelling} {type type' : TypeId} {next next' : String → Dialogue α}
    (htype : ρ.Takes type type') (h : ∀ ρ' ≥ ρ, ∀ text, Alike ρ' (next text) (next' text)) :
    Alike ρ (.ask (.display type) next) (.ask (.display type') next')

theorem Alike.bind {d d' : Dialogue α} {f f' : α → Dialogue β} (h : Alike ρ d d')
    (hf : ∀ ρ' ≥ ρ, ∀ a b, ρ'.Takes a b → Alike ρ' (f a) (f' b)) :
    Alike ρ (d >>= f) (d' >>= f') := by
  induction h with
  | done h => exact hf _ le_rfl _ _ h
  | type _ ih =>
    exact .type fun ρ' hρ x y hx => ih ρ' hρ x y hx fun ρ'' hρ' => hf ρ'' (le_trans hρ hρ')
  | add ht _ ih =>
    exact .add ht fun ρ' hρ x y hx => ih ρ' hρ x y hx fun ρ'' hρ' => hf ρ'' (le_trans hρ hρ')
  | intern ht _ ih =>
    exact .intern ht fun ρ' hρ x y hx => ih ρ' hρ x y hx fun ρ'' hρ' => hf ρ'' (le_trans hρ hρ')
  | union ht _ ih =>
    exact .union ht fun ρ' hρ x y hx => ih ρ' hρ x y hx fun ρ'' hρ' => hf ρ'' (le_trans hρ hρ')
  | intersection ht _ ih =>
    exact .intersection ht fun ρ' hρ x y hx =>
      ih ρ' hρ x y hx fun ρ'' hρ' => hf ρ'' (le_trans hρ hρ')
  | members ht _ ih =>
    exact .members ht fun ρ' hρ x y hx => ih ρ' hρ x y hx fun ρ'' hρ' => hf ρ'' (le_trans hρ hρ')
  | keyNames ht _ ih =>
    exact .keyNames ht fun ρ' hρ names => ih ρ' hρ names fun ρ'' hρ' => hf ρ'' (le_trans hρ hρ')
  | display ht _ ih =>
    exact .display ht fun ρ' hρ text => ih ρ' hρ text fun ρ'' hρ' => hf ρ'' (le_trans hρ hρ')

theorem Alike.mapM {f : γ → Dialogue β} (hf : ∀ ρ c, Alike ρ (f c) (f c)) (ρ : Relabelling)
    (l : List γ) : Alike ρ (l.mapM f) (l.mapM f) := by
  induction l generalizing ρ with
  | nil => exact .done (Relabelling.takes_list .nil)
  | cons c l ih =>
    rw [List.mapM_cons]
    refine (hf ρ c).bind fun ρ' _ b b' hb => (ih ρ').bind fun ρ'' hρ l l' hl => .done ?_
    exact Relabelling.takes_list (.cons (hb.mono hρ) hl.forall₂)

theorem Alike.mapM_takes {f : α → Dialogue β}
    (hf : ∀ ρ a a', ρ.Takes a a' → Alike ρ (f a) (f a')) {l l' : List α} (h : ρ.Takes l l') :
    Alike ρ (l.mapM f) (l'.mapM f) := by
  induction l generalizing ρ l' with
  | nil =>
    cases h.forall₂
    exact .done (Relabelling.takes_list .nil)
  | cons a l ih =>
    obtain ⟨a', rest, ha, hl, rfl⟩ := List.forall₂_cons_left_iff.1 h.forall₂
    rw [List.mapM_cons, List.mapM_cons]
    refine (hf ρ a a' ha).bind fun ρ' hρ b b' hb => ?_
    refine (ih ((Relabelling.takes_list hl).mono hρ)).bind fun ρ'' hρ' bs bs' hbs => .done ?_
    exact Relabelling.takes_list (.cons (hb.mono hρ') hbs.forall₂)

theorem alike_typeOf (ρ : Relabelling) (scope : Scope) (n : Node) :
    Alike ρ (typeOf scope n) (typeOf scope n) :=
  .type fun _ _ _ _ hx => .done hx

theorem alike_add {f f' : Form} {plain : f.isPlain} {plain' : f'.isPlain} (hf : ρ.Takes f f') :
    Alike ρ (add f plain) (add f' plain') :=
  .add hf fun _ _ _ _ hx => .done hx

theorem alike_intern {f f' : Form} {plain : f.isPlain} {plain' : f'.isPlain}
    (hf : ρ.Takes f f') : Alike ρ (intern f plain) (intern f' plain') :=
  .intern hf fun _ _ _ _ hx => .done hx

theorem alike_union {types types' : List TypeId} (h : ρ.Takes types types') :
    Alike ρ (union types) (union types') :=
  .union h fun _ _ _ _ hx => .done hx

theorem alike_intersection {types types' : List TypeId} (h : ρ.Takes types types') :
    Alike ρ (intersection types) (intersection types') :=
  .intersection h fun _ _ _ _ hx => .done hx

theorem alike_members {x y : TypeId} (hx : ρ.Takes x y) : Alike ρ (members x) (members y) :=
  .members hx fun _ _ _ _ hms => .done hms

theorem alike_display {x y : TypeId} (hx : ρ.Takes x y) : Alike ρ (display x) (display y) :=
  .display hx fun _ _ _ => .done ⟨trivial, rfl⟩

theorem alike_primitive (ρ : Relabelling) (p : Primitive) :
    Alike ρ (primitive p) (primitive p) :=
  alike_intern ⟨trivial, rfl⟩

theorem takes_pair {x y x' y' : TypeId} (hx : ρ.Takes x x') (hy : ρ.Takes y y') :
    ρ.Takes [x, y] [x', y'] :=
  Relabelling.takes_list (.cons hx (.cons hy .nil))

theorem alike_boolean (ρ : Relabelling) : Alike ρ boolean boolean := by
  have hliteral : ∀ ρ value, Alike ρ (intern (.booleanLiteral value))
      (intern (.booleanLiteral value)) := fun _ _ => alike_intern ⟨trivial, rfl⟩
  refine (hliteral ρ false).bind fun ρ' _ no no' hno => ?_
  refine (hliteral ρ' true).bind fun ρ'' hρ yes yes' hyes => ?_
  exact alike_union (takes_pair (hno.mono hρ) hyes)

theorem alike_optional {x y : TypeId} (hx : ρ.Takes x y) : Alike ρ (optional x) (optional y) := by
  refine (alike_primitive ρ .undefined).bind fun ρ' hρ undefined undefined' hundefined => ?_
  exact alike_union (takes_pair (hx.mono hρ) hundefined)

theorem alike_orAny (ρ : Relabelling) (scope : Scope) (n : Option Node) :
    Alike ρ (orAny scope n) (orAny scope n) := by
  cases n with
  | none => exact alike_primitive ρ .any
  | some n => exact alike_typeOf ρ scope n

theorem alike_opaqueType (ρ : Relabelling) (n : Node) :
    Alike ρ (opaqueType n) (opaqueType n) :=
  alike_add ⟨fun _ h => absurd h List.not_mem_nil, rfl⟩

theorem alike_literalType (ρ : Relabelling) (n : Node) :
    Alike ρ (literalType n) (literalType n) := by
  rw [literalType]
  split
  · exact alike_opaqueType ρ n
  split
  · exact alike_intern ⟨trivial, rfl⟩
  · split
    · exact alike_intern ⟨trivial, rfl⟩
    · exact alike_opaqueType ρ n
  · split
    · exact alike_intern ⟨trivial, rfl⟩
    · exact alike_opaqueType ρ n
  · exact alike_intern ⟨trivial, rfl⟩
  · exact alike_intern ⟨trivial, rfl⟩
  · exact alike_primitive ρ .null
  · exact alike_primitive ρ .undefined
  · exact alike_opaqueType ρ n

theorem alike_keywordType (ρ : Relabelling) (n : Node) :
    Alike ρ (keywordType n) (keywordType n) := by
  rw [keywordType]
  split
  · exact alike_boolean ρ
  · exact alike_primitive ρ _

theorem alike_member (scope : Scope) (n : Node) (name : String) {x y : TypeId}
    (hx : ρ.Takes x y) : Alike ρ (member scope n name x) (member scope n name y) := by
  have hdone : ∀ ρ' ≥ ρ, ∀ site site', ρ'.Takes site site' → ρ'.Takes
      (Member.mk name x site (n.hasMark .questionMark) (some ⟨scope.file, n.line⟩))
      (Member.mk name y site' (n.hasMark .questionMark) (some ⟨scope.file, n.line⟩)) := by
    intro ρ' hρ site site' hsite
    refine ⟨⟨(hx.mono hρ).1, hsite.1⟩, ?_⟩
    rw [(hx.mono hρ).2, hsite.2]
    rfl
  rw [member, member]
  split
  · exact (alike_optional hx).bind fun ρ' hρ site site' hsite => .done (hdone ρ' hρ _ _ hsite)
  · exact .done (hdone ρ le_rfl x y hx)

theorem alike_parameter (ρ : Relabelling) (scope : Scope) (p : Node.ParameterSyntax) :
    Alike ρ (parameter scope p) (parameter scope p) := by
  refine (alike_orAny ρ scope _).bind fun ρ' _ type type' htype => .done ⟨htype.1, ?_⟩
  rw [htype.2]
  rfl

theorem alike_signature (ρ : Relabelling) (scope : Scope) (n : Node) :
    Alike ρ (signature scope n) (signature scope n) := by
  refine (Alike.mapM (fun ρ => alike_parameter ρ _) ρ _).bind fun ρ' _ params params' hparams => ?_
  refine (alike_orAny ρ' _ _).bind fun ρ'' hρ returns returns' hreturns => .done ?_
  refine ⟨⟨(hparams.mono hρ).1, hreturns.1⟩, ?_⟩
  rw [(hparams.mono hρ).2, hreturns.2]
  rfl

theorem takes_function {s s' : Signature} (h : ρ.Takes s s') :
    ρ.Takes (Form.function s) (Form.function s') :=
  ⟨h.1, congrArg Form.function h.2⟩

theorem takes_entryMember {m m' : Member} (h : ρ.Takes m m') :
    ρ.Takes (Entry.member m) (Entry.member m') :=
  ⟨h.1, congrArg Entry.member h.2⟩

theorem alike_entry (ρ : Relabelling) (scope : Scope) (n : Node) :
    Alike ρ (entry scope n) (entry scope n) := by
  rw [entry]
  split
  · refine (alike_orAny ρ scope _).bind fun ρ' _ declared declared' hdeclared => ?_
    exact (alike_member scope n _ hdeclared).bind fun ρ'' _ m m' hm => .done (takes_entryMember hm)
  · refine (alike_signature ρ scope n).bind fun ρ' _ s s' hs => ?_
    refine (alike_add (takes_function hs)).bind fun ρ'' _ declared declared' hdeclared => ?_
    exact (alike_member scope n _ hdeclared).bind fun ρ'' _ m m' hm => .done (takes_entryMember hm)
  · exact (alike_signature ρ scope n).bind fun ρ' _ s s' hs => .done ⟨hs.1, congrArg _ hs.2⟩
  · exact .done ⟨trivial, rfl⟩

theorem alike_objectBody (ρ : Relabelling) (scope : Scope) (name : Option String) (body : Node) :
    Alike ρ (objectBody scope name body) (objectBody scope name body) := by
  refine (Alike.mapM (fun ρ => alike_entry ρ scope) ρ _).bind fun ρ' _ es es' hes => .done ?_
  have hmembers : ρ'.Takes (es.filterMap Entry.member?) (es'.filterMap Entry.member?) := by
    apply hes.filterMap
    rintro e _ ⟨he, rfl⟩
    cases e with
    | member m => exact Relabelling.takes_some ⟨he, rfl⟩
    | _ => exact Relabelling.takes_none
  have hcalls : ρ'.Takes (es.filterMap Entry.call?) (es'.filterMap Entry.call?) := by
    apply hes.filterMap
    rintro e _ ⟨he, rfl⟩
    cases e with
    | call s => exact Relabelling.takes_some ⟨he, rfl⟩
    | _ => exact Relabelling.takes_none
  refine ⟨⟨hmembers.1, hcalls.1⟩, ?_⟩
  rw [hmembers.2, hcalls.2]
  rfl

theorem alike_withBases (ρ : Relabelling) (scope : Scope) {own own' : List Member}
    (h : ρ.Takes own own') (bases : List Node) :
    Alike ρ (withBases scope own bases) (withBases scope own' bases) := by
  induction bases generalizing ρ own own' with
  | nil => exact .done h
  | cons base bases ih =>
    rw [withBases, withBases, List.foldlM_cons, List.foldlM_cons]
    have hstep : Alike ρ
        (do return mergeMembers own (← members (← typeOf scope base)))
        (do return mergeMembers own' (← members (← typeOf scope base))) := by
      refine (alike_typeOf ρ scope base).bind fun ρ' hρ x y hx => ?_
      refine (alike_members hx).bind fun ρ'' hρ' ms ms' hms => .done ?_
      exact mergeMembers_takes ((h.mono hρ).mono hρ') hms
    exact hstep.bind fun ρ' _ inherited inherited' hinherited => ih ρ' hinherited

theorem alike_ownBody (ρ : Relabelling) (scope : Scope) (n : Node) (name : String) :
    Alike ρ (ownBody scope n name) (ownBody scope n name) := by
  rw [ownBody]
  split
  · exact alike_objectBody ρ scope _ _
  · refine .done ⟨⟨?_, ?_⟩, rfl⟩
    · exact fun _ h => absurd h List.not_mem_nil
    · exact fun _ h => absurd h List.not_mem_nil

theorem alike_interfaceBody (ρ : Relabelling) (scope : Scope) (n : Node) (name : String) :
    Alike ρ (interfaceBody scope n name) (interfaceBody scope n name) := by
  refine (alike_ownBody ρ scope n name).bind fun ρ' _ object object' hobject => ?_
  have hmembers : ρ'.Takes object.members object'.members :=
    ⟨hobject.1.1, congrArg ObjectType.members hobject.2⟩
  refine (alike_withBases ρ' scope hmembers n.baseTypes).bind fun ρ'' hρ ms ms' hms => .done ?_
  have hobject' := hobject.mono hρ
  refine ⟨⟨hms.1, hobject'.1.2⟩, ?_⟩
  rw [hms.2, hobject'.2]
  rfl

theorem takes_reference (name : String) {args args' : List TypeId} (h : ρ.Takes args args') :
    ρ.Takes (Form.reference name args) (Form.reference name args') :=
  ⟨h.1, congrArg (Form.reference name) h.2⟩

theorem takes_array {x y : TypeId} (hx : ρ.Takes x y) : ρ.Takes (Form.array x) (Form.array y) :=
  ⟨hx.1, congrArg Form.array hx.2⟩

theorem alike_memberOptional (ρ : Relabelling) (m m' : Member) (hm : ρ.Takes m m') :
    Alike ρ (memberOptional m) (memberOptional m') := by
  have hdeclared : ρ.Takes m.declared m'.declared := ⟨hm.1.1, congrArg Member.declared hm.2⟩
  refine (alike_optional hdeclared).bind fun ρ' hρ site site' hsite => .done ?_
  refine ⟨⟨(hm.mono hρ).1.1, hsite.1⟩, ?_⟩
  rw [hsite.2, (hm.mono hρ).2]
  rfl

theorem takes_filter_names {ms ms' : List Member} (h : ρ.Takes ms ms') (p : String → Bool) :
    ρ.Takes (ms.filter fun m => p m.name) (ms'.filter fun m => p m.name) := by
  apply h.filter
  rintro m _ ⟨-, rfl⟩
  rfl

theorem alike_utilityMembers {ms ms' : List Member} (hms : ρ.Takes ms ms') (u : Utility)
    {args args' : List TypeId} (hargs : ρ.Takes args args') :
    Alike ρ (utilityMembers ms u args) (utilityMembers ms' u args') := by
  have hnone : Alike ρ (pure none : Dialogue (Option (List Member))) (pure none) :=
    .done Relabelling.takes_none
  cases hargs.forall₂ with
  | nil => cases u <;> exact hnone
  | cons hx hrest =>
    cases hrest with
    | nil =>
      cases u with
      | optional =>
        refine (Alike.mapM_takes alike_memberOptional hms).bind fun ρ' _ rs rs' hrs => ?_
        exact .done (Relabelling.takes_some hrs)
      | required =>
        refine .done (Relabelling.takes_some (hms.map ?_))
        rintro m _ ⟨hm, rfl⟩
        exact ⟨⟨hm.1, hm.1⟩, rfl⟩
      | readonly => exact .done (Relabelling.takes_some hms)
      | picking => exact hnone
      | omitting => exact hnone
    | cons hkeys hrest =>
      cases hrest with
      | nil =>
        cases u with
        | picking =>
          refine .keyNames hkeys fun ρ' hρ names => .done (Relabelling.takes_some ?_)
          exact takes_filter_names (hms.mono hρ) names.contains
        | omitting =>
          refine .keyNames hkeys fun ρ' hρ names => .done (Relabelling.takes_some ?_)
          exact takes_filter_names (hms.mono hρ) (! names.contains ·)
        | _ => exact hnone
      | cons => cases u <;> exact hnone

theorem alike_named {args args' : List TypeId} (hargs : ρ.Takes args args')
    {ms ms' : List Member} (hms : ρ.Takes ms ms') (u : Utility) :
    Alike ρ
      (do
        let texts ← args.mapM display
        let name := u.name ++ "<" ++ ", ".intercalate texts ++ ">"
        return some (← add (.object ⟨some name, ms, []⟩)))
      (do
        let texts ← args'.mapM display
        let name := u.name ++ "<" ++ ", ".intercalate texts ++ ">"
        return some (← add (.object ⟨some name, ms', []⟩))) := by
  refine (Alike.mapM_takes (fun _ _ _ hx => alike_display hx) hargs).bind
    fun ρ' hρ texts texts' htexts => ?_
  obtain rfl : texts' = texts := by
    rw [htexts.2]
    exact List.map_id texts
  have hobject : ∀ name, ρ'.Takes (Form.object ⟨some name, ms, []⟩)
      (Form.object ⟨some name, ms', []⟩) := by
    intro name
    refine ⟨⟨(hms.mono hρ).1, fun _ h => absurd h List.not_mem_nil⟩, ?_⟩
    rw [(hms.mono hρ).2]
    rfl
  exact (alike_add (hobject _)).bind fun ρ'' _ x y hx => .done (Relabelling.takes_some hx)

theorem alike_utility (u : Utility) {args args' : List TypeId} (hargs : ρ.Takes args args') :
    Alike ρ (utility u args) (utility u args') := by
  have hnone : ∀ ρ, Alike ρ (pure none : Dialogue (Option TypeId)) (pure none) :=
    fun _ => .done Relabelling.takes_none
  cases hargs.forall₂ with
  | nil => exact hnone ρ
  | cons hx hrest =>
    refine (alike_members hx).bind fun ρ' hρ ms ms' hms => ?_
    rw [← hms.isEmpty_eq]
    split
    · exact hnone ρ'
    refine (alike_utilityMembers hms u (hargs.mono hρ)).bind fun ρ'' hρ' found found' hfound => ?_
    obtain ⟨hall, rfl⟩ := hfound
    cases found with
    | none => exact hnone ρ''
    | some rs => exact alike_named ((hargs.mono hρ).mono hρ') ⟨hall rs rfl, rfl⟩ u

theorem globalType_singleton (name : String) (x : TypeId) :
    globalType name [x] = if name = "Array" ∨ name = "ReadonlyArray" then intern (.array x)
      else utilityOrReference name [x] := by
  unfold globalType
  split
  · next heq => cases heq; rfl
  · next heq => cases heq; rfl
  · next harray hreadonly =>
    rw [if_neg]
    rintro (rfl | rfl)
    · exact harray x rfl rfl
    · exact hreadonly x rfl rfl

theorem globalType_of_ne_singleton (name : String) {args : List TypeId}
    (h : ∀ x, args ≠ [x]) : globalType name args = utilityOrReference name args := by
  unfold globalType
  split
  · exact (h _ rfl).elim
  · exact (h _ rfl).elim
  · rfl

theorem alike_utilityOrReference (name : String) {args args' : List TypeId}
    (h : ρ.Takes args args') :
    Alike ρ (utilityOrReference name args) (utilityOrReference name args') := by
  rw [utilityOrReference, utilityOrReference]
  cases Utility.ofName? name with
  | none => exact alike_add (takes_reference name h)
  | some u =>
    refine (alike_utility u h).bind fun ρ' hρ r r' hr => ?_
    obtain ⟨hall, rfl⟩ := hr
    cases r with
    | none => exact alike_add (takes_reference name (h.mono hρ))
    | some type => exact .done ⟨hall type rfl, rfl⟩

theorem alike_globalType (name : String) {args args' : List TypeId} (h : ρ.Takes args args') :
    Alike ρ (globalType name args) (globalType name args') := by
  have hother := alike_utilityOrReference name h
  cases h.forall₂ with
  | nil =>
    rw [globalType_of_ne_singleton name (by simp)]
    exact hother
  | cons hx hrest =>
    cases hrest with
    | nil =>
      rw [globalType_singleton, globalType_singleton]
      split
      · exact alike_intern (takes_array hx)
      · exact hother
    | cons =>
      rw [globalType_of_ne_singleton name (by simp), globalType_of_ne_singleton name (by simp)]
      exact hother

theorem Alike.type_map {d d' : Dialogue TypeId} (h : Alike ρ d d') :
    Alike ρ (Meaning.type <$> d) (Meaning.type <$> d') :=
  h.bind fun _ _ _ _ hx => .done ⟨hx.1, congrArg Meaning.type hx.2⟩

theorem alike_namedType (P : Program) (scope : Scope) (name : String) {args args' : List TypeId}
    (h : ρ.Takes args args') :
    Alike ρ (namedType P scope name args) (namedType P scope name args') := by
  rw [namedType, namedType]
  split
  · have hparameter : ρ.Takes (Form.typeParameter name) (Form.typeParameter name) := ⟨trivial, rfl⟩
    exact (alike_add hparameter).type_map
  split
  · exact .done ⟨trivial, rfl⟩
  · exact (alike_globalType name h).type_map

theorem alike_genericType (P : Program) (ρ : Relabelling) (scope : Scope) (n : Node) :
    Alike ρ (genericType P scope n) (genericType P scope n) := by
  refine (Alike.mapM (fun ρ => alike_typeOf ρ scope) ρ _).bind fun ρ' _ args args' hargs => ?_
  split
  · exact (alike_opaqueType ρ' n).type_map
  split
  · exact (alike_add (takes_reference _ hargs)).type_map
  · exact alike_namedType P scope _ hargs

theorem alike_tupleElement (ρ : Relabelling) (scope : Scope) (n : Node) :
    Alike ρ (tupleElement scope n) (tupleElement scope n) := by
  rw [tupleElement]
  split
  refine (alike_orAny ρ scope _).bind fun ρ' _ type type' htype => .done ⟨htype.1, ?_⟩
  rw [htype.2]
  rfl

theorem alike_structuralType (ρ : Relabelling) (scope : Scope) (n : Node) :
    Alike ρ (structuralType scope n) (structuralType scope n) := by
  have hparts := Alike.mapM (fun ρ => alike_typeOf ρ scope) ρ n.parts
  rw [structuralType]
  split
  · exact alike_orAny ρ scope _
  · exact alike_orAny ρ scope _
  · exact alike_orAny ρ scope _
  · exact alike_keywordType ρ n
  · exact alike_literalType ρ n
  · exact alike_primitive ρ .undefined
  · exact alike_primitive ρ .null
  · exact alike_primitive ρ .string
  · refine (alike_objectBody ρ scope none n).bind fun ρ' _ object object' hobject => ?_
    exact alike_add ⟨hobject.1, congrArg Form.object hobject.2⟩
  · exact (alike_orAny ρ scope _).bind fun ρ' _ x y hx => alike_intern (takes_array hx)
  · refine (Alike.mapM (fun ρ => alike_tupleElement ρ scope) ρ _).bind fun ρ' _ es es' hes => ?_
    exact alike_add ⟨hes.1, congrArg Form.tuple hes.2⟩
  · exact hparts.bind fun ρ' _ types types' htypes => alike_union htypes
  · exact hparts.bind fun ρ' _ types types' htypes => alike_intersection htypes
  · exact (alike_signature ρ scope n).bind fun ρ' _ s s' hs => alike_add (takes_function hs)
  · exact alike_opaqueType ρ n

theorem alike_meaning (P : Program) (ρ : Relabelling) (scope : Scope) (n : Node) :
    Alike ρ (meaning P scope n) (meaning P scope n) := by
  have hnil : ρ.Takes ([] : List TypeId) [] := Relabelling.takes_list .nil
  rw [meaning]
  split
  · exact alike_namedType P scope _ hnil
  · exact alike_namedType P scope _ hnil
  · exact alike_genericType P ρ scope n
  · exact (alike_structuralType ρ scope n).type_map

end Dialogue

namespace Declaration

open Dialogue

theorem alike_interfaceBody (ρ : Relabelling) (d : Declaration) :
    Alike ρ d.interfaceBody d.interfaceBody :=
  Dialogue.alike_interfaceBody ρ d.scope d.node d.name

theorem alike_aliasBody (ρ : Relabelling) (d : Declaration) : Alike ρ d.aliasBody d.aliasBody :=
  alike_orAny ρ d.scope _

end Declaration

end PropSchema
