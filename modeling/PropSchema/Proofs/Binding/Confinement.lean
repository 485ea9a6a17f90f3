import PropSchema.Proofs.Binding.Foresight
import PropSchema.Proofs.Binding.Parametric
import PropSchema.Proofs.Ty.Closed

namespace PropSchema

open Relabelled

open Relabelling

namespace Bindings

variable {b : Bindings} {p : TypeId → Prop}

structure Confined (p : TypeId → Prop) (b : Bindings) : Prop where
  entry : ∀ id, p id → All p (b.table.entry id)
  interned : ∀ f id, b.table.interned.lookup f = some id → All p f → p id
  declared : ∀ key id, b.declared.lookup key = some id → p id

namespace Confined

theorem mirrors (h : Confined p b) : TypeTable.Mirrors (self p) b.table b.table :=
  fun id hid => takes_self (h.entry id hid)

theorem all_form (h : Confined p b) {x : TypeId} (hx : p x) : All p (b.table.form x) :=
  (h.mirrors.form_takes (takes_self hx)).1

theorem all_constituents (h : Confined p b) {types : List TypeId} (hall : All p types) :
    All p (types.flatMap b.table.constituents).eraseDups :=
  ((takes_self hall).flatMap fun _ _ => h.mirrors.constituents_takes).eraseDups.1

theorem all_factors (h : Confined p b) {types : List TypeId} (hall : All p types) :
    All p (types.flatMap b.table.factors) :=
  ((takes_self hall).flatMap fun _ _ => h.mirrors.factors_takes).1

theorem all_members (h : Confined p b) {x : TypeId} (hx : p x) : All p (b.table.members x) :=
  (h.mirrors.members_takes (takes_self hx)).1

theorem addForm (h : Confined p b) {f : Form} (hf : p b.table.size → All p f) :
    Confined p { b with table := (b.table.addForm f).2 } where
  entry id hid := by
    obtain heq | ⟨rfl, heq⟩ := b.table.entry_addForm_cases f id
    · exact heq ▸ h.entry id hid
    · exact heq ▸ ⟨hf hid, all_none⟩
  interned := h.interned
  declared := h.declared

theorem intern (h : Confined p b) {f : Form}
    (hf : b.table.interned.lookup f = none → (p b.table.size ↔ All p f)) :
    Confined p { b with table := (b.table.intern f).2 } := by
  cases hl : b.table.interned.lookup f with
  | some id =>
    rw [TypeTable.intern_of_lookup hl]
    exact h
  | none =>
    rw [TypeTable.intern_of_lookup_none hl]
    refine ⟨(h.addForm (hf hl).1).entry, fun g id hg hall => ?_, h.declared⟩
    by_cases hgf : g = f
    · subst hgf
      rw [List.lookup_cons_self] at hg
      exact Option.some.inj hg ▸ (hf hl).2 hall
    · rw [List.lookup_cons, beq_false_of_ne hgf] at hg
      exact h.interned g id hg hall

theorem declare (h : Confined p b) (d : Declaration) {f : Form} (hf : All p f)
    (hnew : p b.table.size) : Confined p (b.declare d f) where
  entry := (h.addForm fun _ => hf).entry
  interned := h.interned
  declared key id hkey := by
    by_cases heq : key = d.key
    · subst heq
      rw [lookup_declare_self] at hkey
      exact Option.some.inj hkey ▸ hnew
    · rw [lookup_declare_of_ne f heq] at hkey
      exact h.declared key id hkey

theorem setForm (h : Confined p b) (slot : TypeId) {f : Form} (hf : All p f) :
    Confined p { b with table := b.table.setForm slot f } where
  entry id hid := by
    obtain heq | heq := b.table.entry_setForm_cases slot f id
    · exact heq ▸ h.entry id hid
    · exact heq ▸ ⟨hf, (h.entry id hid).2⟩
  interned := h.interned
  declared := h.declared

theorem fillInterface (h : Confined p b) (slot : TypeId) {object : ObjectType}
    (hobject : All p object) : Confined p (b.fillInterface slot object) :=
  h.setForm slot (f := .object object) hobject

theorem fillAlias (h : Confined p b) (slot : TypeId) (name : String) {body : TypeId}
    (hbody : p body) : Confined p (b.fillAlias slot name body) := by
  rw [Bindings.fillAlias]
  split
  · exact h.setForm slot (f := .primitive .any) trivial
  refine ⟨fun id hid => ?_, h.interned, h.declared⟩
  obtain heq | heq := b.table.entry_setAlias_cases slot name body id
  · exact heq ▸ h.entry id hid
  · exact heq ▸ ⟨h.all_form hbody, fun a ha => Option.some.inj ha ▸ hbody⟩

end Confined

end Bindings

theorem Declaration.all_leafForm (p : TypeId → Prop) (d : Declaration) : All p d.leafForm := by
  rw [leafForm]
  split
  · exact trivial
  · exact fun _ h => absurd h List.not_mem_nil

namespace Bindings

def ConfinedFrom (p : TypeId → Prop) (start : TypeId) (b : Bindings) : Prop :=
  Confined p b ∧ start ≤ b.table.size

def NewWithin (p : TypeId → Prop) (start : TypeId) (b : Bindings) : Prop :=
  ∀ id, start ≤ id → id < b.table.size → p id

variable {b c : Bindings} {p : TypeId → Prop} {start : TypeId}

theorem NewWithin.of_settles (hbc : b.Settles c) (h : NewWithin p start c) :
    NewWithin p start b :=
  fun id hle hlt => h id hle (Nat.lt_of_lt_of_le hlt hbc.table.size_le)

theorem ConfinedFrom.grows (h : ConfinedFrom p start b) (hc : Confined p c) (hbc : b.Grows c) :
    ConfinedFrom p start c :=
  ⟨hc, Nat.le_trans h.2 hbc.table.size_le⟩

end Bindings

namespace Binder

open Bindings

variable {α : Type} {p : TypeId → Prop} {start : TypeId}

abbrev Confines (p : TypeId → Prop) (start : TypeId) (x : BindM α) (result : α → Prop) : Prop :=
  Yields (ConfinedFrom p start) (NewWithin p start) x result

theorem confines_addForm {f : Form} (hf : All p f) :
    Confines p start (onTable (·.addForm f)) p := by
  intro b hb hend
  rw [after_onTable] at hend ⊢
  exact ⟨hb.grows (hb.1.addForm fun _ => hf) (grows_addForm b f), hend _ hb.2 (by simp)⟩

theorem confines_intern {f : Form} (hf : All p f) :
    Confines p start (onTable (·.intern f)) p := by
  intro b hb hend
  rw [after_onTable] at hend ⊢
  have hnew : b.table.interned.lookup f = none → p b.table.size := by
    intro hl
    apply hend _ hb.2
    rw [TypeTable.intern_of_lookup_none hl]
    change b.table.size < (b.table.addForm f).2.size
    simp
  have hc := hb.1.intern fun hl => iff_of_true (hnew hl) hf
  exact ⟨hb.grows hc (grows_intern b f), hc.interned f _ (TypeTable.lookup_intern b.table f) hf⟩

theorem confines_union {types : List TypeId} (hall : All p types) :
    Confines p start (onTable (·.union types)) p := by
  intro b hb hend
  have hparts := hb.1.all_constituents hall
  rw [after_onTable] at hend ⊢
  obtain ⟨-, heq⟩ | ⟨one, hone, heq⟩ | ⟨-, heq⟩ := b.table.union_cases types
  · rw [heq] at hend ⊢
    exact confines_intern (f := .primitive .never) trivial b hb hend
  · rw [heq]
    exact ⟨hb, hparts one (by simp [hone])⟩
  · rw [heq] at hend ⊢
    exact confines_intern (f := .union _) hparts b hb hend

theorem confines_intersection {types : List TypeId} (hall : All p types) :
    Confines p start (onTable (·.intersection types)) p := by
  intro b hb hend
  have hparts := hb.1.all_factors hall
  rw [after_onTable] at hend ⊢
  obtain ⟨one, hone, heq⟩ | heq := b.table.intersection_cases types
  · rw [heq]
    exact ⟨hb, hparts one (by simp [hone])⟩
  · rw [heq] at hend ⊢
    exact confines_addForm (f := .intersection _) hparts b hb hend

theorem confines_run [Relabelled α] {bind : Binder}
    (hgrows : ∀ scope n, Kept Grows (bind scope n))
    (hbind : ∀ scope n, Confines p start (bind scope n) p) {d d' : Dialogue α}
    (h : Dialogue.Alike (self p) d d') : Confines p start (bind.run d) (All p) := by
  have hask : ∀ (q : Question) (next : q.Answer → Dialogue α) (result : q.Answer → Prop),
      Confines p start (bind.answer q) result →
      (∀ a, result a → Confines p start (bind.run (next a)) (All p)) →
      Confines p start (bind.run (.ask q next)) (All p) := by
    intro q next result hq hnext
    exact hq.bind .of_settles hnext fun a => kept_grows hgrows (next a)
  generalize hρ : self p = ρ at h
  induction h with
  | done h =>
    subst hρ
    exact yields_pure h.1
  | type _ ih =>
    subst hρ
    exact hask _ _ p (hbind _ _) fun x hx => ih _ le_rfl x x (takes_self hx) rfl
  | add hf _ ih =>
    subst hρ
    exact hask _ _ p (confines_addForm hf.1) fun x hx => ih _ le_rfl x x (takes_self hx) rfl
  | intern hf _ ih =>
    subst hρ
    exact hask _ _ p (confines_intern hf.1) fun x hx => ih _ le_rfl x x (takes_self hx) rfl
  | union htypes _ ih =>
    subst hρ
    exact hask _ _ p (confines_union htypes.1) fun x hx => ih _ le_rfl x x (takes_self hx) rfl
  | intersection htypes _ ih =>
    subst hρ
    exact hask _ _ p (confines_intersection htypes.1) fun x hx =>
      ih _ le_rfl x x (takes_self hx) rfl
  | members htype _ ih =>
    subst hρ
    refine hask _ _ (fun ms : List Member => All p ms) ?_ fun ms hms =>
      ih _ le_rfl ms ms (takes_self hms) rfl
    exact fun b hb _ => ⟨hb, hb.1.all_members htype.1⟩
  | keyNames _ _ ih =>
    subst hρ
    exact hask _ _ (fun _ => True) (fun b hb _ => ⟨hb, trivial⟩) fun names _ => ih _ le_rfl names rfl
  | display _ _ ih =>
    subst hρ
    exact hask _ _ (fun _ => True) (fun b hb _ => ⟨hb, trivial⟩) fun text _ => ih _ le_rfl text rfl

end Binder

theorem Program.yielding_confined (P : Program) (p : TypeId → Prop) (start : TypeId) :
    P.Yielding (fun _ _ => True) (Bindings.ConfinedFrom p start) (Bindings.NewWithin p start) p
      (All p) where
  has _ := trivial
  foreseen := .of_settles
  any := Binder.confines_intern (f := .primitive .any) trivial
  meaning hgrows hbind scope n _ b hb hend := by
    have h := Binder.confines_run hgrows (fun scope n => hbind scope n trivial)
      (Dialogue.alike_meaning P (self p) scope n) b hb hend
    refine ⟨h.1, fun id hm => ?_⟩
    rw [hm] at h
    exact h.2
  interfaceBody hgrows hbind d _ _ :=
    Binder.confines_run hgrows (fun scope n => hbind scope n trivial) (d.alike_interfaceBody (self p))
  aliasBody hgrows hbind d _ :=
    Binder.confines_run hgrows (fun scope n => hbind scope n trivial) (d.alike_aliasBody (self p))
  declared hb hl := hb.1.declared _ _ hl
  declare {b d f} hb hf hend := by
    have hslot : p b.table.size := hend _ hb.2 (by simp)
    have hall : All p f := by
      obtain rfl | rfl := hf
      · trivial
      · exact Declaration.all_leafForm p d
    exact ⟨⟨hb.1.declare d hall hslot, by simpa using Nat.le_succ_of_le hb.2⟩, hslot⟩
  fillInterface slot hb ho := ⟨hb.1.fillInterface slot ho, by simpa using hb.2⟩
  fillAlias slot name hb hbody := ⟨hb.1.fillAlias slot name hbody, by simpa using hb.2⟩

end PropSchema
