import PropSchema.Proofs.Binding.Watch
import PropSchema.Proofs.Binding.WellMade

namespace PropSchema

namespace Bindings

variable {b c e : Bindings}

theorem find_intern_cases {f : Form} (hl : b.table.interned.lookup f = none) {handle : Handle}
    {id : TypeId} (h : Bindings.find { b with table := (b.table.intern f).2 } handle = some id) :
    b.find handle = some id ∨ handle = .form f ∧ id = b.table.size := by
  rw [TypeTable.intern_of_lookup_none hl] at h
  cases handle with
  | declaration key => exact .inl h
  | form g =>
    change ((f, b.table.size) :: b.table.interned).lookup g = some id at h
    by_cases hgf : g = f
    · subst hgf
      rw [List.lookup_cons_self] at h
      exact .inr ⟨rfl, (Option.some.inj h).symm⟩
    · rw [List.lookup_cons, beq_false_of_ne hgf] at h
      exact .inl h

theorem find_declare_cases {d : Declaration} {f : Form} {handle : Handle} {id : TypeId}
    (h : (b.declare d f).find handle = some id) :
    b.find handle = some id ∨ handle = .declaration d.key ∧ id = b.table.size := by
  cases handle with
  | form g => exact .inl h
  | declaration key =>
    change (b.declare d f).declared.lookup key = some id at h
    by_cases hkey : key = d.key
    · subst hkey
      rw [lookup_declare_self] at h
      exact .inr ⟨rfl, (Option.some.inj h).symm⟩
    · rw [lookup_declare_of_ne f hkey] at h
      exact .inl h

structure Indexed (b : Bindings) : Prop where
  lt : ∀ {handle id}, b.find handle = some id → id < b.table.size
  inj : ∀ {handle handle' id}, b.find handle = some id → b.find handle' = some id →
    handle = handle'

namespace Indexed

theorem empty : Indexed {} where
  lt {handle id} h := by cases handle <;> cases h
  inj {handle handle' id} h _ := by cases handle <;> cases h

theorem extend (h : b.Indexed) (new : Handle) (hlt : b.table.size < c.table.size)
    (hfind : ∀ {handle id}, c.find handle = some id → b.find handle = some id ∨
      handle = new ∧ id = b.table.size) : c.Indexed where
  lt hid := by
    obtain hold | ⟨-, rfl⟩ := hfind hid
    · exact Nat.lt_trans (h.lt hold) hlt
    · exact hlt
  inj hid hid' := by
    obtain hold | ⟨rfl, rfl⟩ := hfind hid
    · obtain hold' | ⟨-, rfl⟩ := hfind hid'
      · exact h.inj hold hold'
      · exact absurd (h.lt hold) (Nat.lt_irrefl _)
    · obtain hold' | ⟨rfl, -⟩ := hfind hid'
      · exact absurd (h.lt hold') (Nat.lt_irrefl _)
      · rfl

theorem of_find (h : b.Indexed) (hsize : b.table.size ≤ c.table.size)
    (hfind : ∀ handle, c.find handle = b.find handle) : c.Indexed where
  lt hid := Nat.lt_of_lt_of_le (h.lt ((hfind _).symm.trans hid)) hsize
  inj hid hid' := h.inj ((hfind _).symm.trans hid) ((hfind _).symm.trans hid')

theorem addForm (h : b.Indexed) (f : Form) :
    Indexed { b with table := (b.table.addForm f).2 } :=
  h.of_find (TypeTable.grows_addForm b.table f).size_le fun handle => by cases handle <;> rfl

theorem intern (h : b.Indexed) (f : Form) :
    Indexed { b with table := (b.table.intern f).2 } := by
  cases hl : b.table.interned.lookup f with
  | some id =>
    rw [TypeTable.intern_of_lookup hl]
    exact h
  | none =>
    apply h.extend (.form f) _ (find_intern_cases hl)
    rw [TypeTable.intern_of_lookup_none hl]
    change b.table.size < (b.table.addForm f).2.size
    simp

theorem declare (h : b.Indexed) (d : Declaration) (f : Form) : (b.declare d f).Indexed :=
  h.extend (.declaration d.key) (by simp) find_declare_cases

theorem fillInterface (h : b.Indexed) (slot : TypeId) (object : ObjectType) :
    (b.fillInterface slot object).Indexed :=
  h.of_find (Nat.le_of_eq (by simp)) (find_fillInterface b slot object)

theorem fillAlias (h : b.Indexed) (slot : TypeId) (name : String) (body : TypeId) :
    (b.fillAlias slot name body).Indexed :=
  h.of_find (Nat.le_of_eq (by simp)) (find_fillAlias b slot name body)

end Indexed

structure Matures (b e : Bindings) : Prop extends b.Settles e where
  find_old : ∀ {handle id}, e.find handle = some id → id < b.table.size →
    b.find handle = some id

theorem Grows.matures (h : b.Grows c) : b.Matures c := ⟨h.settles, h.find_old⟩

namespace Matures

theorem trans (h : b.Matures c) (h' : c.Matures e) : b.Matures e where
  toSettles := h.toSettles.trans h'.toSettles
  find_old he hid := h.find_old (h'.find_old he (Nat.lt_of_lt_of_le hid h.table.size_le)) hid

theorem find (h : b.Matures e) {handle : Handle} {id : TypeId} (hb : b.find handle = some id) :
    e.find handle = some id := by
  cases handle with
  | form f => exact h.table.lookup_eq hb
  | declaration key => exact h.declared hb

theorem of_fillInterface {slot : TypeId} {object : ObjectType} (hopen : b.table.IsOpen slot)
    (h : (b.fillInterface slot object).Matures e) : b.Matures e :=
  trans ⟨settles_fillInterface hopen object, fun hid _ => find_fillInterface .. ▸ hid⟩ h

theorem of_fillAlias {slot body : TypeId} {name : String} (hopen : b.table.IsOpen slot)
    (h : (b.fillAlias slot name body).Matures e) : b.Matures e :=
  trans ⟨settles_fillAlias hopen name body, fun hid _ => find_fillAlias .. ▸ hid⟩ h

end Matures

end Bindings

open Bindings

theorem Program.closed_indexed (P : Program) : P.Closed fun b c => b.Indexed → c.Indexed where
  refl _ hb := hb
  trans h h' hb := h' (h hb)
  add _ f _ hb := hb.addForm f
  intern _ f _ hb := hb.intern f
  leaf _ d _ _ _ hb := hb.declare d _
  interface _ _ d _ _ _ h hb := (h (hb.declare d _)).fillInterface _ _
  typeAlias _ _ d _ _ _ h hb := (h (hb.declare d _)).fillAlias _ _ _

structure Bindings.Regular (b : Bindings) : Prop where
  wellMade : b.table.WellMade
  indexed : b.Indexed

namespace Bindings.Regular

variable {b : Bindings} (h : b.Regular)

include h

theorem reserve (d : Declaration) : (b.reserve d).Regular :=
  ⟨h.wellMade.addForm fun hne => absurd rfl hne, h.indexed.declare d .pending⟩

variable (P : Program) (levels : Nat)

theorem answer (q : Question) : (b.after ((P.binderAt levels).answer q)).2.Regular :=
  ⟨(P.closed_builds.kept_answer levels q b).wellMade h.wellMade,
    P.closed_indexed.kept_answer levels q b h.indexed⟩

theorem run {α : Type} (d : Dialogue α) : (b.after ((P.binderAt levels).run d)).2.Regular :=
  ⟨(P.closed_builds.kept_run levels d b).wellMade h.wellMade,
    P.closed_indexed.kept_run levels d b h.indexed⟩

end Bindings.Regular

namespace Program

open Binder

variable {P : Program} {w : Watch} {b c e : Bindings} {owner : Owner} {levels : Nat}

/-- The declaration was bound and watched on the way to `e`. -/
def BoundUnder (P : Program) (w : Watch) (e : Bindings) (d : Declaration) : Prop :=
  ∃ levels b, b.Regular ∧ b.declared.lookup d.key = none ∧
    (P.binderAt levels).WatchedBody w (P.WatchedAt w levels) d b ∧
    (b.after ((P.binderAt levels).declarationType d)).2.Matures e

/-- So was every declaration that is bound in `c` and not yet in `b`. -/
def Chronicled (P : Program) (w : Watch) (e b c : Bindings) : Prop :=
  ∀ d slot, P.Has d → b.declared.lookup d.key = none → c.declared.lookup d.key = some slot →
    P.BoundUnder w e d

theorem Chronicled.of_declared_eq (h : c.declared = b.declared) : P.Chronicled w e b c := by
  intro d slot _ hnone hslot
  rw [h, hnone] at hslot
  cases hslot

theorem Chronicled.trans {m : Bindings} (h : P.Chronicled w e b m) (h' : P.Chronicled w e m c) :
    P.Chronicled w e b c := by
  intro d slot hd hnone hslot
  cases hm : m.declared.lookup d.key with
  | none => exact h' d slot hd hm hslot
  | some slot' => exact h d slot' hd hnone hm

section

variable (hnode : ∀ owner b scope n, P.WatchedAt w levels owner b scope n → b.Regular →
  (b.after (P.binderAt levels scope n)).2.Matures e →
    P.Chronicled w e b (b.after (P.binderAt levels scope n)).2)

include hnode

theorem chronicled_run {α : Type} {d : Dialogue α}
    (h : (P.binderAt levels).Watched w (P.WatchedAt w levels) owner d b) (hb : b.Regular)
    (he : (b.after ((P.binderAt levels).run d)).2.Matures e) :
    P.Chronicled w e b (b.after ((P.binderAt levels).run d)).2 := by
  induction d generalizing b with
  | done a => exact .of_declared_eq rfl
  | ask q next ih =>
    have hgrows := P.kept_grows_run levels (next (b.after ((P.binderAt levels).answer q)).1)
    have hq : P.Chronicled w e b (b.after ((P.binderAt levels).answer q)).2 := by
      cases q with
      | type scope n => exact hnode _ _ _ _ h.1 hb ((hgrows _).matures.trans he)
      | _ => exact .of_declared_eq rfl
    apply hq.trans
    apply ih _ h.2 _ he
    exact hb.answer P levels q

theorem chronicled_declaration (hP : P.Numbered) {d : Declaration} (hd : P.Has d)
    (h : (P.binderAt levels).WatchedDeclaration w (P.WatchedAt w levels) d b) (hb : b.Regular)
    (he : (b.after ((P.binderAt levels).declarationType d)).2.Matures e) :
    P.Chronicled w e b (b.after ((P.binderAt levels).declarationType d)).2 := by
  cases hl : b.declared.lookup d.key with
  | some id =>
    rw [after_declarationType_of_some hl]
    exact .of_declared_eq rfl
  | none =>
    -- Apart from the declaration itself, those are new that its body leads to.
    have hself : P.BoundUnder w e d := ⟨levels, b, hb, hl, h hl, he⟩
    have hbody : ∀ m : Bindings, P.Chronicled w e (b.reserve d) m → P.Chronicled w e b m := by
      intro m hm d' slot hd' hnone hslot
      by_cases hkey : d'.key = d.key
      · exact (hP.eq_of_key hd' hd hkey).symm ▸ hself
      · exact hm d' slot hd' (lookup_declare_of_ne (b := b) .pending hkey ▸ hnone) hslot
    apply hbody
    obtain ⟨hk, heq⟩ | ⟨hk, heq⟩ | ⟨hleaf, heq⟩ := after_declarationType_of_none _ hl
    · rw [heq, after_interfaceType] at he ⊢
      exact chronicled_run hnode ((h hl).1 hk) (hb.reserve d)
        (he.of_fillInterface (P.kept_grows_run levels _ _).isOpen)
    · rw [heq, after_aliasType] at he ⊢
      have hrun := chronicled_run hnode ((h hl).2 hk).1 (hb.reserve d)
        (he.of_fillAlias (P.kept_grows_run levels _ _).isOpen)
      exact hrun.trans (.of_declared_eq (declared_fillAlias _ _ _ _))
    · rw [heq]
      exact .of_declared_eq rfl

end

theorem chronicled_watchedAt (hP : P.Numbered) {scope : Scope} {n : Node}
    (h : P.WatchedAt w levels owner b scope n) (hb : b.Regular)
    (he : (b.after (P.binderAt levels scope n)).2.Matures e) :
    P.Chronicled w e b (b.after (P.binderAt levels scope n)).2 := by
  induction levels generalizing owner b scope n with
  | zero => exact h.elim
  | succ levels ih =>
    have hgrows := P.closed_grows.kept_binderAt levels
    have hnode := fun owner b scope n => @ih b owner scope n
    have hmeaning := h.2
    rw [binderAt] at he ⊢
    have hrun := chronicled_run hnode h.1 hb
    have hb' := hb.run P levels (.meaning P scope n)
    have hcases := after_nodeType_cases P (P.binderAt levels) scope n b
    generalize b.after ((P.binderAt levels).run (.meaning P scope n)) = r at *
    obtain ⟨id, -, heq⟩ | ⟨d, hm, hd, heq⟩ := hcases
    · rw [heq] at he ⊢
      exact hrun he
    · rw [heq] at he ⊢
      rw [hm] at hmeaning
      have hlater := (kept_grows_declarationType hgrows d r.2).matures.trans he
      exact (hrun hlater).trans (chronicled_declaration hnode hP hd hmeaning hb' he)

end Program

end PropSchema
