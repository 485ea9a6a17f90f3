import PropSchema.Proofs.Binding.Confinement
import PropSchema.Proofs.Binding.Steady

/-!
The bindings in the middle of a run, beside the finished bindings of another one. Each of their
types stands for a type of the finished bindings, and what is read steadily in both is the same.
-/

namespace PropSchema

open Relabelled Relabelling Bindings

instance : Relabelled Handle where
  rename σ
    | .form f => .form (rename σ f)
    | .declaration key => .declaration key
  All p
    | .form f => All p f
    | .declaration _ => True
  rename_congr {σ τ h} hall := by
    cases h with
    | form f => exact congrArg Handle.form (rename_congr hall)
    | declaration key => rfl
  rename_rename σ τ h := by cases h <;> simp only [rename_rename]
  rename_id h := by cases h <;> simp only [rename_id]
  all_mono {p q h} hpq hall := by
    cases h with
    | form f => exact all_mono hpq hall
    | declaration key => trivial
  all_of hp h := by
    cases h with
    | form f => exact all_of hp f
    | declaration key => trivial
  all_and {p q h} hp hq := by
    cases h with
    | form f => exact all_and hp hq
    | declaration key => trivial
  all_of_rename {p σ h} hall := by
    cases h with
    | form f => exact all_of_rename hall
    | declaration key => trivial

def Relabelling.total (σ : Equiv.Perm TypeId) : Relabelling := ⟨σ, fun _ => True⟩

theorem Relabelling.takes_total {α : Type} [Relabelled α] (σ : Equiv.Perm TypeId) (a : α) :
    (total σ).Takes a (rename σ a) :=
  ⟨all_of (fun _ => trivial) a, rfl⟩

theorem exists_le_perm (σ : Equiv.Perm TypeId) (n : TypeId) : ∃ m, ∀ id, m ≤ id → n ≤ σ id := by
  induction n with
  | zero => exact ⟨0, fun id _ => Nat.zero_le _⟩
  | succ n ih =>
    obtain ⟨m, hm⟩ := ih
    refine ⟨max m (σ.symm n + 1), fun id hle => ?_⟩
    have hlt : σ.symm n < id := Nat.le_trans (Nat.le_max_right _ _) hle
    apply Nat.lt_of_le_of_ne (hm id (Nat.le_trans (Nat.le_max_left _ _) hle))
    rintro rfl
    rw [σ.symm_apply_apply] at hlt
    exact Nat.lt_irrefl id hlt

theorem Relabelling.Takes.total {α : Type} [Relabelled α] {ρ : Relabelling} {a b : α}
    (h : ρ.Takes a b) : (total ρ.perm).Takes a b :=
  ⟨all_of (fun _ => trivial) a, h.2⟩

theorem Relabelling.Takes.ne_pending {ρ : Relabelling} {f f' : Form} (h : ρ.Takes f f')
    (hf : f ≠ .pending) : f' ≠ .pending := by
  rw [h.2]
  cases f with
  | pending => exact absurd rfl hf
  | _ => exact Form.noConfusion

theorem Declaration.takes_leafForm (ρ : Relabelling) (d : Declaration) :
    ρ.Takes d.leafForm d.leafForm := by
  refine ⟨d.all_leafForm ρ.dom, ?_⟩
  have hsame := rename_congr (d.all_leafForm fun id => id = ρ.perm id)
  exact (rename_id d.leafForm).symm.trans hsame

theorem TypeTable.exists_mirrored (t : TypeTable) (σ : Equiv.Perm TypeId) :
    ∃ u : TypeTable, (∀ id, u.entry id = rename σ.symm (t.entry (σ id))) ∧
      Mirrors (total σ) u t := by
  obtain ⟨size, hout⟩ := exists_le_perm σ t.size
  let u : TypeTable := ⟨Array.ofFn fun id : Fin size => rename σ.symm (t.entry (σ id)), []⟩
  have hentry : ∀ id, u.entry id = rename σ.symm (t.entry (σ id)) := by
    intro id
    by_cases hlt : id < size
    · simp [u, entry, Array.getD, hlt]
    · rw [entry_of_size_le (hout id (Nat.le_of_not_lt hlt)), entry_of_size_le]
      · rfl
      · simpa [u, TypeTable.size] using hlt
  refine ⟨u, hentry, fun id _ => ?_⟩
  have heq : rename σ (u.entry id) = t.entry (σ id) := by
    rw [hentry id]
    exact rename_symm_rename σ.symm _
  change (total σ).Takes (u.entry id) (t.entry (σ id))
  rw [← heq]
  exact takes_total σ _

def Bindings.Made (e : Bindings) (own : TypeId → Owner) (owner : Owner) (id : TypeId) : Prop :=
  (∀ handle, e.find handle ≠ some id) ∧ own id = owner

def Bindings.Started (b : Bindings) : Owner → Prop
  | none => True
  | some key => ∃ slot, b.find (.declaration key) = some slot

theorem Bindings.Grows.started {b c : Bindings} (h : b.Grows c) {owner : Owner}
    (hb : b.Started owner) : c.Started owner := by
  cases owner with
  | none => trivial
  | some key =>
    obtain ⟨slot, hslot⟩ := hb
    exact ⟨slot, h.find hslot⟩

structure Program.Finished (P : Program) (own : TypeId → Owner) (e : Bindings) : Prop where
  regular : e.Regular
  bound : ∀ d slot, P.Has d → e.declared.lookup d.key = some slot →
    P.BoundUnder (P.steadiness.marked own) e d

theorem Program.Finished.completes {P : Program} {own : TypeId → Owner} {e s : Bindings}
    (h : P.Finished own e) (hs : s.Matures e) : P.Completes s e.table where
  entry_eq hopen := hs.table.entry_eq (TypeTable.lt_size_of_not_isOpen hopen) hopen
  solid hd hsolid hslot := by
    have he := hs.declared hslot
    exact (h.bound _ _ hd he).isSolid hsolid he

/-- The bindings in the middle of a run: each of their types stands for one of the finished
bindings, with the same entry unless it is open, and under the same handles. A type without a handle
stands for one that was made for an owner that has begun. -/
structure Follows (e : Bindings) (own : TypeId → Owner) (ρ : Relabelling) (s : Bindings) :
    Prop where
  dom : ∀ id, ρ.dom id ↔ id < s.table.size
  entry : ∀ id, ρ.dom id → ¬ s.table.IsOpen id →
    ρ.Takes (s.table.entry id) (e.table.entry (ρ.perm id))
  found : ∀ handle id, s.find handle = some id →
    All ρ.dom handle ∧ ρ.dom id ∧ e.find (rename ρ.perm handle) = some (ρ.perm id)
  origin : ∀ id, ρ.dom id → (∃ handle, s.find handle = some id) ∨
    ∃ owner, s.Started owner ∧ e.Made own owner (ρ.perm id)

namespace Follows

variable {P : Program} {e s s' c c' : Bindings} {own : TypeId → Owner} {ρ : Relabelling}

theorem confined (h : Follows e own ρ s) : s.Confined ρ.dom where
  entry id hid := by
    by_cases hopen : s.table.IsOpen id
    · rw [hopen]
      exact ⟨trivial, all_none⟩
    · exact (h.entry id hid hopen).1
  interned f id hl _ := (h.found (.form f) id hl).2.1
  declared key id hl := (h.found (.declaration key) id hl).2.1

/-- The finished table, under the numbers of the run, completes the bindings. -/
theorem exists_completion (h : Follows e own ρ s) (he : P.Finished own e) :
    ∃ u, P.Completes s u ∧ TypeTable.Mirrors (total ρ.perm) u e.table := by
  obtain ⟨u, hentry, hmirrors⟩ := e.table.exists_mirrored ρ.perm
  refine ⟨u, ⟨fun {id} hopen => ?_, fun {d slot} hd hsolid hslot => ?_⟩, hmirrors⟩
  · have hid := (h.dom id).2 (TypeTable.lt_size_of_not_isOpen hopen)
    rw [hentry, (h.entry id hid hopen).2]
    exact rename_symm_rename ρ.perm _
  · have hfound := (h.found (.declaration d.key) slot hslot).2.2
    have hform := (he.bound d _ hd hfound).isSolid hsolid hfound
    rw [hentry]
    change (Form.rename ρ.perm.symm (e.table.entry (ρ.perm slot)).form).isSolid
    cases hf : (e.table.entry (ρ.perm slot)).form <;> simp_all [Form.rename, Form.isSolid]

/-- What both runs read steadily is the same under the numbers of the finished bindings. -/
theorem reading {β : Type} [Relabelled β] (h : Follows e own ρ s) (he : P.Finished own e)
    (hs' : s'.Matures e) (read read' : TypeTable → β)
    (hread : ∀ u, P.Completes s u → read u = read s.table)
    (hread' : ∀ u, P.Completes s' u → read' u = read' s'.table)
    (htakes : ∀ u, TypeTable.Mirrors (total ρ.perm) u e.table →
      (total ρ.perm).Takes (read u) (read' e.table))
    (hall : All ρ.dom (read s.table)) : ρ.Takes (read s.table) (read' s'.table) := by
  obtain ⟨u, hu, hmirrors⟩ := h.exists_completion he
  refine ⟨hall, ?_⟩
  rw [← hread u hu, ← hread' e.table (he.completes hs')]
  exact (htakes u hmirrors).2

theorem reading_eq {β : Type} (h : Follows e own ρ s) (he : P.Finished own e) (hs' : s'.Matures e)
    (read read' : TypeTable → β) (hread : ∀ u, P.Completes s u → read u = read s.table)
    (hread' : ∀ u, P.Completes s' u → read' u = read' s'.table)
    (heq : ∀ u, TypeTable.Mirrors (total ρ.perm) u e.table → read u = read' e.table) :
    read s.table = read' s'.table := by
  obtain ⟨u, hu, hmirrors⟩ := h.exists_completion he
  rw [← hread u hu, ← hread' e.table (he.completes hs')]
  exact heq u hmirrors

theorem ne_of_find (h : Follows e own ρ s) (he : e.Indexed) {handle : Handle} {y : TypeId}
    (hnone : s.find handle = none) (hy : e.find (rename ρ.perm handle) = some y) (id : TypeId)
    (hid : ρ.dom id) : ρ.perm id ≠ y := by
  rintro rfl
  obtain ⟨handle', hfind⟩ | ⟨owner, -, hmade⟩ := h.origin id hid
  · have heq := rename_injective ρ.perm (he.inj hy (h.found handle' id hfind).2.2)
    rw [heq, hfind] at hnone
    cases hnone
  · exact hmade.1 _ hy

theorem push (h : Follows e own ρ s) {y : TypeId} (hy : ∀ id, ρ.dom id → ρ.perm id ≠ y)
    (hgrows : s.Grows c) (hsize : c.table.size = s.table.size + 1) {f : Form}
    (hself : c.table.entry s.table.size = ⟨f, none⟩)
    (hf : f ≠ .pending → All ρ.dom f ∧ e.table.entry y = ⟨rename ρ.perm f, none⟩)
    (hfind : ∀ handle id, c.find handle = some id → s.find handle = some id ∨
      id = s.table.size ∧ All ρ.dom handle ∧ e.find (rename ρ.perm handle) = some y)
    (horigin : (∃ handle, c.find handle = some s.table.size) ∨
      ∃ owner, c.Started owner ∧ e.Made own owner y) :
    ∃ ρ' ≥ ρ, (∀ id, ρ'.dom id ↔ ρ.dom id ∨ id = s.table.size) ∧ ρ'.perm s.table.size = y ∧
      Follows e own ρ' c := by
  obtain ⟨ρ', hρ, hdom, hperm⟩ := ρ.exists_next (mt (h.dom _).1 (Nat.lt_irrefl _)) hy
  have hnew : ρ'.dom s.table.size := (hdom _).2 (.inr rfl)
  have hrename : ∀ handle : Handle, All ρ.dom handle →
      All ρ'.dom handle ∧ rename ρ'.perm handle = rename ρ.perm handle := by
    intro handle hall
    exact ⟨all_mono (fun id hid => (hρ id hid).1) hall,
      rename_congr (all_mono (fun id hid => (hρ id hid).2) hall)⟩
  refine ⟨ρ', hρ, hdom, hperm, ⟨fun id => ?_, fun id hid hopen => ?_, fun handle id hid => ?_,
    fun id hid => ?_⟩⟩
  · rw [hdom, h.dom, hsize, Nat.lt_succ_iff_lt_or_eq]
  · obtain hold | rfl := (hdom id).1 hid
    · have heq := hgrows.table.entry_eq ((h.dom id).1 hold)
      rw [TypeTable.IsOpen, heq] at hopen
      rw [heq, (hρ id hold).2]
      exact (h.entry id hold hopen).mono hρ
    · have hne : f ≠ .pending := by
        rintro rfl
        exact hopen hself
      obtain ⟨hall, hentry⟩ := hf hne
      rw [hself, hperm, hentry]
      exact (Takes.entry ⟨hall, rfl⟩ takes_none).mono hρ
  · obtain hold | ⟨rfl, hall, hfound⟩ := hfind handle id hid
    · obtain ⟨hall, hid, hfound⟩ := h.found handle id hold
      rw [(hrename handle hall).2, (hρ id hid).2]
      exact ⟨(hrename handle hall).1, (hρ id hid).1, hfound⟩
    · rw [(hrename handle hall).2, hperm]
      exact ⟨(hrename handle hall).1, hnew, hfound⟩
  · obtain hold | rfl := (hdom id).1 hid
    · obtain ⟨handle, hhandle⟩ | ⟨owner, hstarted, hmade⟩ := h.origin id hold
      · exact .inl ⟨handle, hgrows.find hhandle⟩
      · exact .inr ⟨owner, hgrows.started hstarted, (hρ id hold).2 ▸ hmade⟩
    · rw [hperm]
      exact horigin

theorem not_made (h : Follows e own ρ s) {owner : Owner} (howner : ¬ s.Started owner) {id : TypeId}
    (hid : ρ.dom id) : ¬ e.Made own owner (ρ.perm id) := by
  intro hmade
  obtain ⟨handle, hfind⟩ | ⟨other, hstarted, hother⟩ := h.origin id hid
  · exact hmade.1 _ (h.found handle id hfind).2.2
  · exact howner (hmade.2 ▸ hother.2 ▸ hstarted)

theorem declare (h : Follows e own ρ s) (he : e.Regular) {d : Declaration} {y : TypeId}
    (hl : s.declared.lookup d.key = none) (hy : e.find (.declaration d.key) = some y)
    {f : Form}
    (hf : f ≠ .pending → All ρ.dom f ∧ e.table.entry y = ⟨rename ρ.perm f, none⟩) :
    ∃ ρ' ≥ ρ, (∀ id, ρ'.dom id ↔ ρ.dom id ∨ id = s.table.size) ∧ ρ'.perm s.table.size = y ∧
      Follows e own ρ' (s.declare d f) := by
  have hnone : s.find (.declaration d.key) = none := hl
  apply h.push (h.ne_of_find he.indexed hnone hy) (grows_declare hl f) (size_declare s d f)
    (TypeTable.entry_addForm_self s.table f) hf
  · intro handle id hid
    obtain hold | ⟨rfl, rfl⟩ := find_declare_cases hid
    · exact .inl hold
    · exact .inr ⟨rfl, trivial, hy⟩
  · exact .inl ⟨.declaration d.key, lookup_declare_self s d f⟩

section Fill

variable {slot slot' : TypeId} (hslot : ρ.Takes slot slot')

include hslot

theorem fill (h : Follows e own ρ s) (hsize : c.table.size = s.table.size)
    (hfind : ∀ handle, c.find handle = s.find handle)
    (hentry : ∀ id, id ≠ slot → c.table.entry id = s.table.entry id)
    (hfilled : ρ.Takes (c.table.entry slot) (c'.table.entry slot'))
    (hclosed : ¬ c'.table.IsOpen slot') (hlater : c'.Matures e) : Follows e own ρ c where
  dom id := by rw [h.dom, hsize]
  entry id hid hopen := by
    by_cases heq : id = slot
    · have hlast := hlater.table.entry_eq (TypeTable.lt_size_of_not_isOpen hclosed) hclosed
      have hperm : ρ.perm slot = slot' := hslot.2.symm
      rw [heq, hperm, hlast]
      exact hfilled
    · rw [TypeTable.IsOpen, hentry id heq] at hopen
      rw [hentry id heq]
      exact h.entry id hid hopen
  found handle id hid := h.found handle id (hfind handle ▸ hid)
  origin id hid := by
    obtain ⟨handle, hhandle⟩ | ⟨owner, hstarted, hmade⟩ := h.origin id hid
    · exact .inl ⟨handle, (hfind handle).trans hhandle⟩
    · refine .inr ⟨owner, ?_, hmade⟩
      cases owner with
      | none => trivial
      | some key =>
        obtain ⟨other, hother⟩ := hstarted
        exact ⟨other, (hfind _).trans hother⟩

variable (hopen : s.table.IsOpen slot) (hopen' : s'.table.IsOpen slot')
  (hlt' : slot' < s'.table.size)

include hopen hopen' hlt'

theorem fillInterface (h : Follows e own ρ s) {object object' : ObjectType}
    (hobject : ρ.Takes object object') (hlater : (s'.fillInterface slot' object').Matures e) :
    Follows e own ρ (s.fillInterface slot object) := by
  have hentry' := entry_fillInterface_self hlt' hopen' object'
  apply h.fill hslot (size_fillInterface ..) (find_fillInterface s slot object)
    (fun id hid => TypeTable.entry_setForm_of_ne _ hid) _ _ hlater
  · rw [entry_fillInterface_self ((h.dom _).1 hslot.1) hopen, hentry']
    exact .entry ⟨hobject.1, congrArg Form.object hobject.2⟩ takes_none
  · rw [TypeTable.IsOpen, hentry']
    exact fun heq => Form.noConfusion (congrArg Entry.form heq)

theorem fillAlias (h : Follows e own ρ s) (he : P.Finished own e) {body body' : TypeId}
    (hbody : ρ.Takes body body') (hsteady : body ≠ slot → P.SteadyForm s body)
    (hsteady' : body' ≠ slot' → P.SteadyForm s' body') {name : String}
    (hlater : (s'.fillAlias slot' name body').Matures e) :
    Follows e own ρ (s.fillAlias slot name body) := by
  have hlt := (h.dom _).1 hslot.1
  apply h.fill hslot (size_fillAlias ..) (find_fillAlias s slot name body)
    (fun id hid => entry_fillAlias_of_ne hid name body) _ _ hlater
  · by_cases hself : body = slot
    · obtain rfl : body' = slot' := by rw [hbody.2, hself, hslot.2]
      rw [hself, entry_fillAlias_self hlt hopen, entry_fillAlias_self hlt' hopen']
      exact .entry ⟨trivial, rfl⟩ takes_none
    · have hself' : body' ≠ slot' := by
        rw [hbody.2, hslot.2]
        exact fun heq => hself (ρ.perm.injective heq)
      have hform := h.reading he (hlater.of_fillAlias hopen') (fun t => t.form body)
        (fun t => t.form body') (hsteady hself) (hsteady' hself')
        (fun u hu => hu.form_takes hbody.total) (h.confined.all_form hbody.1)
      rw [entry_fillAlias_target hlt hself, entry_fillAlias_target hlt' hself']
      have halias : ρ.Takes (Alias.mk name body) ⟨name, body'⟩ :=
        ⟨hbody.1, congrArg (Alias.mk name) hbody.2⟩
      exact hform.entry (takes_some halias)
  · rw [TypeTable.IsOpen]
    by_cases hself' : body' = slot'
    · rw [hself', entry_fillAlias_self hlt' hopen']
      exact fun heq => Form.noConfusion (congrArg Entry.form heq)
    · rw [entry_fillAlias_target hlt' hself']
      exact fun heq => Option.some_ne_none _ (congrArg Entry.aliasOf heq)

end Fill

end Follows

end PropSchema
