import PropSchema.Proofs.Binding.States

namespace PropSchema

open Relabelled

def Member.optionalIn (t : TypeTable) (m : Member) : Member :=
  { m with site := (t.optional m.declared).1, optional := true }

def Member.required (m : Member) : Member := { m with site := m.declared, optional := false }

def Utility.arity : Utility → Nat
  | .optional | .required | .readonly => 1
  | .picking | .omitting => 2

namespace TypeTable

variable {t : TypeTable}

theorem grows_optional (t : TypeTable) (id : TypeId) : t.Grows (t.optional id).2 :=
  (grows_intern t _).trans (grows_union _ _)

def Lists (t : TypeTable) (keys : TypeId) (name : String) : Prop :=
  ∃ part ∈ t.constituents keys, t.form part = .stringLiteral name

instance (t : TypeTable) (keys : TypeId) (name : String) : Decidable (t.Lists keys name) :=
  inferInstanceAs (Decidable (∃ part ∈ t.constituents keys, t.form part = .stringLiteral name))

theorem keyName?_eq_some_iff {part : TypeId} {name : String} :
    t.keyName? part = some name ↔ t.form part = .stringLiteral name := by
  rw [keyName?]
  split <;> simp_all

theorem contains_keyNames (t : TypeTable) (keys : TypeId) (name : String) :
    (t.keyNames keys).contains name = decide (t.Lists keys name) := by
  rw [Bool.eq_iff_iff, List.contains_iff_mem, decide_eq_true_eq, keyNames, List.mem_filterMap,
    Lists]
  simp only [keyName?_eq_some_iff]
  rw [keyParts, constituents]
  cases hform : t.form keys with
  | primitive p => cases p <;> simp [hform]
  | _ => simp [hform]

theorem Coherent.lists_iff (h : t.Coherent) {u : TypeTable} (hgrows : t.Grows u) {keys : TypeId}
    (hkeys : keys < t.size) {name : String} : u.Lists keys name ↔ t.Lists keys name := by
  rw [← decide_eq_true_eq (p := u.Lists keys name), ← decide_eq_true_eq (p := t.Lists keys name),
    ← contains_keyNames, ← contains_keyNames,
    (h.mirrors hgrows).keyNames_eq (Relabelling.takes_self hkeys)]

end TypeTable

namespace Binder

variable (bind : Binder) {b c : Bindings}

theorem after_run_members (b : Bindings) (type : TypeId) :
    b.after (bind.run (.members type)) = (b.table.members type, b) :=
  after_run_of_answer (after_answer_members bind b type) _

theorem after_run_keyNames (b : Bindings) (keys : TypeId) :
    b.after (bind.run (.keyNames keys)) = (b.table.keyNames keys, b) :=
  after_run_of_answer (after_answer_keyNames bind b keys) _

theorem after_run_displays (b : Bindings) (types : List TypeId) :
    b.after (bind.run (types.mapM .display)) = (types.map b.table.display, b) := by
  induction types with
  | nil => rfl
  | cons type types ih =>
    have hfirst : b.after (bind.run (.display type)) = (b.table.display type, b) :=
      after_run_of_answer (after_answer_display bind b type) _
    rw [List.mapM_cons, after_run_bind, hfirst, after_run_bind, ih]
    rfl

theorem after_memberOptional (b : Bindings) (m : Member) :
    b.after (bind.run (.memberOptional m)) =
      (m.optionalIn b.table, { b with table := (b.table.optional m.declared).2 }) := rfl

theorem after_optionalMembers (hb : b.table.Coherent) {ms : List Member}
    (hms : All (· < b.table.size) ms) :
    let r := b.after (bind.run (ms.mapM .memberOptional))
    b.table.Grows r.2.table ∧ r.2.table.Coherent ∧ All (· < r.2.table.size) r.1 ∧
      ∀ w, r.2.table.Grows w → r.1 = ms.map (·.optionalIn w) := by
  induction ms generalizing b with
  | nil => exact ⟨.refl _, hb, fun m hm => absurd hm List.not_mem_nil, fun w _ => rfl⟩
  | cons m ms ih =>
    obtain ⟨hm, hms⟩ := List.forall_mem_cons.1 hms
    have hgrows := TypeTable.grows_optional b.table m.declared
    obtain ⟨hmore, hcoherent, hall, hsites⟩ := ih
      (b := { b with table := (b.table.optional m.declared).2 }) (hb.optional hm.1)
      (all_mono (fun _ hlt => Nat.lt_of_lt_of_le hlt hgrows.size_le) hms)
    rw [List.mapM_cons, after_run_bind, after_memberOptional, after_run_bind]
    refine ⟨hgrows.trans hmore, hcoherent, List.forall_mem_cons.2 ⟨⟨?_, ?_⟩, hall⟩, fun w hw => ?_⟩
    · exact Nat.lt_of_lt_of_le hm.1 (hgrows.trans hmore).size_le
    · exact Nat.lt_of_lt_of_le (hb.lt_optional hm.1) hmore.size_le
    · have hagain := hb.optional_again hm.1 (hmore.trans hw)
      have hfirst : m.optionalIn b.table = m.optionalIn w := by
        rw [Member.optionalIn, Member.optionalIn, hagain]
      rw [List.map_cons, ← hfirst, ← hsites w hw]
      rfl

section Made

variable {u : Utility} {base : TypeId} {args : List TypeId}

theorem after_utility_of_some {ms : List Member} (hne : b.table.members base ≠ [])
    (hms : b.after (bind.run (.utilityMembers (b.table.members base) u (base :: args))) =
      (some ms, c)) :
    b.after (bind.run (.utility u (base :: args))) =
      let name := u.name ++ "<" ++ ", ".intercalate ((base :: args).map c.table.display) ++ ">"
      (some c.table.size,
        { c with table := (c.table.addForm (.object ⟨some name, ms, []⟩)).2 }) := by
  have hsome : ¬ (b.table.members base).isEmpty = true := by simpa using hne
  rw [Dialogue.utility, after_run_bind, after_run_members, if_neg hsome, after_run_bind, hms]
  dsimp only
  rw [after_run_bind, after_run_displays]
  rfl

theorem after_utility_of_nil (hnil : b.table.members base = []) :
    b.after (bind.run (.utility u (base :: args))) = (none, b) := by
  rw [Dialogue.utility, after_run_bind, after_run_members, hnil]
  rfl

end Made

theorem after_picking (b : Bindings) (ms : List Member) (base keys : TypeId) :
    b.after (bind.run (.utilityMembers ms .picking [base, keys])) =
      (some (ms.filter fun m => b.table.Lists keys m.name), b) := by
  rw [Dialogue.utilityMembers, after_run_bind, after_run_keyNames]
  simp only [TypeTable.contains_keyNames]
  rfl

theorem after_omitting (b : Bindings) (ms : List Member) (base keys : TypeId) :
    b.after (bind.run (.utilityMembers ms .omitting [base, keys])) =
      (some (ms.filter fun m => ¬ b.table.Lists keys m.name), b) := by
  rw [Dialogue.utilityMembers, after_run_bind, after_run_keyNames]
  simp only [TypeTable.contains_keyNames, decide_not]
  rfl

theorem after_readonly (b : Bindings) (ms : List Member) (base : TypeId) :
    b.after (bind.run (.utilityMembers ms .readonly [base])) = (some ms, b) := rfl

theorem after_required (b : Bindings) (ms : List Member) (base : TypeId) :
    b.after (bind.run (.utilityMembers ms .required [base])) = (some (ms.map .required), b) := rfl

theorem after_optional (b : Bindings) (ms : List Member) (base : TypeId) :
    b.after (bind.run (.utilityMembers ms .optional [base])) =
      let r := b.after (bind.run (ms.mapM .memberOptional))
      (some r.1, r.2) := by
  rw [Dialogue.utilityMembers, after_run_bind]
  rfl

end Binder

namespace Bindings

variable {b c : Bindings} {u : Utility} {base type : TypeId} {args : List TypeId}

/-- The type was made by a utility of these types, and the table has only grown since then. -/
inductive HasMade (c : Bindings) (u : Utility) (args : List TypeId) (type : TypeId) : Prop
  | intro {b made : Bindings} (bind : Binder) (coherent : b.table.Coherent)
    (holds : b.table.Holds args) (run : b.after (bind.run (.utility u args)) = (some type, made))
    (grows : made.table.Grows c.table)

theorem exists_utilityMembers (bind : Binder) (hb : b.table.Coherent) {ms : List Member}
    (hms : All (· < b.table.size) ms) (harity : (base :: args).length = u.arity) :
    ∃ found c, b.after (bind.run (.utilityMembers ms u (base :: args))) = (some found, c) ∧
      b.table.Grows c.table ∧ c.table.Coherent ∧ All (· < c.table.size) found := by
  cases u with
  | optional =>
    obtain rfl : args = [] := List.length_eq_zero_iff.1 (Nat.succ.inj harity)
    obtain ⟨hgrows, hcoherent, hall, -⟩ := bind.after_optionalMembers hb hms
    exact ⟨_, _, bind.after_optional b ms base, hgrows, hcoherent, hall⟩
  | required =>
    obtain rfl : args = [] := List.length_eq_zero_iff.1 (Nat.succ.inj harity)
    refine ⟨_, _, bind.after_required b ms base, .refl _, hb, ?_⟩
    exact List.forall_mem_map.2 fun m hm => ⟨(hms m hm).1, (hms m hm).1⟩
  | readonly =>
    obtain rfl : args = [] := List.length_eq_zero_iff.1 (Nat.succ.inj harity)
    exact ⟨_, _, bind.after_readonly b ms base, .refl _, hb, hms⟩
  | picking =>
    obtain ⟨keys, rfl⟩ := List.length_eq_one_iff.1 (Nat.succ.inj harity)
    refine ⟨_, _, bind.after_picking b ms base keys, .refl _, hb, ?_⟩
    exact fun m hm => hms m (List.mem_filter.1 hm).1
  | omitting =>
    obtain ⟨keys, rfl⟩ := List.length_eq_one_iff.1 (Nat.succ.inj harity)
    refine ⟨_, _, bind.after_omitting b ms base keys, .refl _, hb, ?_⟩
    exact fun m hm => hms m (List.mem_filter.1 hm).1

theorem exists_made (bind : Binder) (hb : b.table.Coherent) (hargs : b.table.Holds (base :: args))
    (hne : b.table.members base ≠ []) (harity : (base :: args).length = u.arity) :
    ∃ type c, b.after (bind.run (.utility u (base :: args))) = (some type, c) ∧
      b.table.Grows c.table ∧ c.table.Coherent ∧ type < c.table.size := by
  have hms := hb.all_members (hargs base List.mem_cons_self)
  obtain ⟨found, c, hfound, hgrows, hc, hall⟩ := exists_utilityMembers bind hb hms harity
  refine ⟨_, _, bind.after_utility_of_some hne hfound, ?_, ?_, ?_⟩
  · exact hgrows.trans (TypeTable.grows_addForm _ _)
  · exact hc.addForm (f := .object _) ⟨hall, fun _ h => absurd h List.not_mem_nil⟩
  · simp

namespace HasMade

theorem mono {d : Bindings} (h : c.HasMade u args type) (hgrows : c.table.Grows d.table) :
    d.HasMade u args type := by
  obtain ⟨bind, hb, hargs, hrun, hmade⟩ := h
  exact .intro bind hb hargs hrun (hmade.trans hgrows)

theorem exists_found (h : c.HasMade u (base :: args) type)
    (harity : (base :: args).length = u.arity) :
    ∃ (bind : Binder) (b : Bindings), b.table.Coherent ∧ b.table.Holds (base :: args) ∧
      let r := b.after (bind.run (.utilityMembers (b.table.members base) u (base :: args)))
      r.1 = some (c.table.members type) ∧ b.table.Grows r.2.table ∧ r.2.table.Grows c.table := by
  obtain ⟨bind, hb, hargs, hrun, hgrows⟩ := h
  rename_i b made
  have hne : b.table.members base ≠ [] := by
    intro hnil
    rw [bind.after_utility_of_nil hnil] at hrun
    cases hrun
  have hms := hb.all_members (hargs base List.mem_cons_self)
  obtain ⟨found, d, hfound, hmore, -, -⟩ := exists_utilityMembers bind hb hms harity
  rw [bind.after_utility_of_some hne hfound] at hrun
  cases hrun
  refine ⟨bind, b, hb, hargs, ?_⟩
  rw [hfound]
  refine ⟨?_, hmore, (TypeTable.grows_addForm _ _).trans hgrows⟩
  have hentry := (hgrows.entry_eq (by simp)).trans (TypeTable.entry_addForm_self d.table _)
  rw [TypeTable.members_of_object (TypeTable.form_of_entry hentry)]

theorem members_picking {keys : TypeId} (h : c.HasMade .picking [base, keys] type) :
    c.table.members type = (c.table.members base).filter fun m => c.table.Lists keys m.name := by
  obtain ⟨bind, b, hb, hargs, hfound, -, hgrows⟩ := h.exists_found rfl
  rw [bind.after_picking] at hfound hgrows
  rw [← Option.some.inj hfound, hb.members_eq hgrows (hargs base (by simp))]
  simp only [hb.lists_iff hgrows (hargs keys (by simp))]

theorem members_omitting {keys : TypeId} (h : c.HasMade .omitting [base, keys] type) :
    c.table.members type = (c.table.members base).filter fun m => ¬ c.table.Lists keys m.name := by
  obtain ⟨bind, b, hb, hargs, hfound, -, hgrows⟩ := h.exists_found rfl
  rw [bind.after_omitting] at hfound hgrows
  rw [← Option.some.inj hfound, hb.members_eq hgrows (hargs base (by simp))]
  simp only [hb.lists_iff hgrows (hargs keys (by simp))]

theorem members_readonly (h : c.HasMade .readonly [base] type) :
    c.table.members type = c.table.members base := by
  obtain ⟨bind, b, hb, hargs, hfound, -, hgrows⟩ := h.exists_found rfl
  rw [bind.after_readonly] at hfound hgrows
  rw [← Option.some.inj hfound, hb.members_eq hgrows (hargs base (by simp))]

theorem members_required (h : c.HasMade .required [base] type) :
    c.table.members type = (c.table.members base).map .required := by
  obtain ⟨bind, b, hb, hargs, hfound, -, hgrows⟩ := h.exists_found rfl
  rw [bind.after_required] at hfound hgrows
  rw [← Option.some.inj hfound, hb.members_eq hgrows (hargs base (by simp))]

theorem members_optional (h : c.HasMade .optional [base] type) :
    c.table.members type = (c.table.members base).map (·.optionalIn c.table) := by
  obtain ⟨bind, b, hb, hargs, hfound, hmore, hgrows⟩ := h.exists_found rfl
  have hbase : base < b.table.size := hargs base (by simp)
  obtain ⟨-, -, -, hsites⟩ := bind.after_optionalMembers hb (hb.all_members hbase)
  rw [bind.after_optional] at hfound hgrows hmore
  rw [← Option.some.inj hfound, hsites c.table hgrows, hb.members_eq (hmore.trans hgrows) hbase]

end HasMade

/-- A utility over the result of `Partial` or `Required` sees nothing of what these did. -/
theorem HasMade.members_twice {inner outer : Utility} {x y z : TypeId}
    (hinner : inner = .optional ∨ inner = .required)
    (houter : outer = .optional ∨ outer = .required)
    (hx : c.HasMade inner [base] x) (hy : c.HasMade outer [x] y) (hz : c.HasMade outer [base] z) :
    c.table.members y = c.table.members z := by
  obtain rfl | rfl := houter
  · rw [hy.members_optional, hz.members_optional]
    obtain rfl | rfl := hinner
    · rw [hx.members_optional, List.map_map]
      rfl
    · rw [hx.members_required, List.map_map]
      rfl
  · rw [hy.members_required, hz.members_required]
    obtain rfl | rfl := hinner
    · rw [hx.members_optional, List.map_map]
      rfl
    · rw [hx.members_required, List.map_map]
      rfl

/-- Whenever types are bound, a utility makes a type of any type with members. `Pick` and `Omit`
part the members by their names, `Readonly` keeps them, and `Partial` and `Required` only change
whether they are optional; of two such changes one after the other the last one counts. -/
theorem utility_algebra :
    (∀ (P : Program) (b : Bindings), P.Occurs b → b.table.Coherent) ∧
    (∀ (bind : Binder) (b : Bindings) (u : Utility) (base : TypeId) (args : List TypeId),
      b.table.Coherent → b.table.Holds (base :: args) → b.table.members base ≠ [] →
      (base :: args).length = u.arity →
      ∃ type c, b.after (bind.run (.utility u (base :: args))) = (some type, c) ∧
        b.table.Grows c.table ∧ c.table.Coherent ∧ type < c.table.size ∧
        c.HasMade u (base :: args) type) ∧
    ∀ (c : Bindings) (base : TypeId),
      (∀ keys picked omitted, c.HasMade .picking [base, keys] picked →
        c.HasMade .omitting [base, keys] omitted →
        c.table.members picked =
          (c.table.members base).filter (fun m => c.table.Lists keys m.name) ∧
        c.table.members omitted =
          (c.table.members base).filter (fun m => ¬ c.table.Lists keys m.name)) ∧
      (∀ same, c.HasMade .readonly [base] same → c.table.members same = c.table.members base) ∧
      (∀ u type, u = .optional ∨ u = .required → c.HasMade u [base] type →
        (c.table.members type).map (fun m => (m.name, m.declared, m.declaration)) =
          (c.table.members base).map (fun m => (m.name, m.declared, m.declaration)) ∧
        ∀ m ∈ c.table.members type, m.optional = true ↔ u = .optional) ∧
      ∀ inner outer x y z, inner = .optional ∨ inner = .required →
        outer = .optional ∨ outer = .required → c.HasMade inner [base] x →
        c.HasMade outer [x] y → c.HasMade outer [base] z →
        c.table.members y = c.table.members z := by
  refine ⟨fun P b h => h.orderly.coherent, ?_, fun c base => ⟨?_, ?_, ?_, ?_⟩⟩
  · intro bind b u base args hb hargs hne harity
    obtain ⟨type, c, hrun, hgrows, hc, htype⟩ := exists_made bind hb hargs hne harity
    exact ⟨type, c, hrun, hgrows, hc, htype, .intro bind hb hargs hrun (.refl _)⟩
  · exact fun keys picked omitted hpicked homitted =>
      ⟨hpicked.members_picking, homitted.members_omitting⟩
  · exact fun same h => h.members_readonly
  · rintro u type (rfl | rfl) h
    · rw [h.members_optional, List.map_map]
      refine ⟨rfl, List.forall_mem_map.2 fun m _ => iff_of_true rfl rfl⟩
    · rw [h.members_required, List.map_map]
      refine ⟨rfl, List.forall_mem_map.2 fun m _ => iff_of_false Bool.false_ne_true (by decide)⟩
  · exact fun inner outer x y z hinner houter => HasMade.members_twice hinner houter

def item : Bindings where
  table := ((({} : TypeTable).primitive .string).2.optional 0).2.addForm
    (.object ⟨some "Item", [⟨"id", 0, 0, false, none⟩, ⟨"owner", 0, 2, true, none⟩], []⟩) |>.2

theorem coherent_item : item.table.Coherent := by
  have hstring := TypeTable.Coherent.empty.intern (f := .primitive .string) trivial
  have hsize : 0 < (({} : TypeTable).primitive .string).2.size := by decide
  refine (hstring.optional hsize).addForm (f := .object _) ⟨?_, ?_⟩
  · refine List.forall_mem_cons.2 ⟨⟨?_, ?_⟩, List.forall_mem_singleton.2 ⟨?_, ?_⟩⟩ <;>
      exact by decide
  · exact fun _ h => absurd h List.not_mem_nil

theorem members_item :
    item.table.members 3 = [⟨"id", 0, 0, false, none⟩, ⟨"owner", 0, 2, true, none⟩] :=
  TypeTable.members_of_object (o := ⟨some "Item", _, []⟩) rfl

theorem utility_algebra_item :
    ∃ (c : Bindings) (p r pr : TypeId), c.HasMade .optional [3] p ∧ c.HasMade .required [3] r ∧
      c.HasMade .optional [r] pr ∧ c.table.members pr = c.table.members p ∧
      (c.table.members p).map Member.name = ["id", "owner"] := by
  obtain ⟨-, hmake, hlaws⟩ := utility_algebra
  let bind : Binder := fun _ _ => pure 0
  obtain ⟨p, c₁, -, hgrows₁, hc₁, -, hp⟩ := hmake bind item .optional 3 [] coherent_item
    (List.forall_mem_singleton.2 (by decide)) (by simp [members_item]) rfl
  have hbase : 3 < c₁.table.size := Nat.lt_of_lt_of_le (by decide) hgrows₁.size_le
  have hbase₁ := (coherent_item.members_eq hgrows₁ (by decide)).trans members_item
  obtain ⟨r, c₂, -, hgrows₂, hc₂, hr, hrequired⟩ := hmake bind c₁ .required 3 [] hc₁
    (List.forall_mem_singleton.2 hbase) (by simp [hbase₁]) rfl
  have hbase₂ := (hc₁.members_eq hgrows₂ hbase).trans hbase₁
  obtain ⟨pr, c, -, hgrows, -, -, hpr⟩ := hmake bind c₂ .optional r [] hc₂
    (List.forall_mem_singleton.2 hr) (by simp [hrequired.members_required, hbase₂]) rfl
  have hp := hp.mono (hgrows₂.trans hgrows)
  have hrequired := hrequired.mono hgrows
  have hbase₃ := (hc₂.members_eq hgrows (Nat.lt_of_lt_of_le hbase hgrows₂.size_le)).trans hbase₂
  obtain ⟨-, -, -, htwice⟩ := hlaws c 3
  refine ⟨c, p, r, pr, hp, hrequired, hpr, ?_, ?_⟩
  · exact htwice .required .optional r pr p (.inr rfl) (.inl rfl) hrequired hpr hp
  · simp [hp.members_optional, hbase₃, Member.optionalIn]

end Bindings

end PropSchema
