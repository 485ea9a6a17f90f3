import PropSchema.Proofs.Binding.Run

namespace PropSchema

namespace TypeTable

variable {t u v : TypeTable} {id slot : TypeId}

@[simp] theorem size_setForm (t : TypeTable) (slot : TypeId) (f : Form) :
    (t.setForm slot f).size = t.size := by
  simp [setForm, size]

@[simp] theorem size_setAlias (t : TypeTable) (slot : TypeId) (name : String) (target : TypeId) :
    (t.setAlias slot name target).size = t.size := by
  simp [setAlias, size]

theorem entry_setForm_of_ne (f : Form) (h : id ≠ slot) :
    (t.setForm slot f).entry id = t.entry id := by
  simp only [setForm, entry, Array.getD_eq_getD_getElem?]
  rw [Array.getElem?_setIfInBounds_ne (Ne.symm h)]

theorem entry_setForm_self (f : Form) (h : slot < t.size) :
    (t.setForm slot f).entry slot = { t.entry slot with form := f } := by
  have h' : slot < t.entries.size := h
  simp [setForm, entry, Array.getD, h']

theorem entry_setAlias_of_ne (name : String) (target : TypeId) (h : id ≠ slot) :
    (t.setAlias slot name target).entry id = t.entry id := by
  simp only [setAlias, entry, Array.getD_eq_getD_getElem?]
  rw [Array.getElem?_setIfInBounds_ne (Ne.symm h)]

theorem entry_setAlias_self (name : String) (target : TypeId) (h : slot < t.size) :
    (t.setAlias slot name target).entry slot = ⟨t.form target, some ⟨name, target⟩⟩ := by
  have h' : slot < t.entries.size := h
  simp [setAlias, entry, Array.getD, h']

theorem entry_setForm_cases (t : TypeTable) (slot : TypeId) (f : Form) (id : TypeId) :
    (t.setForm slot f).entry id = t.entry id ∨
      (t.setForm slot f).entry id = { t.entry id with form := f } := by
  by_cases hid : id = slot
  · subst hid
    by_cases hlt : id < t.size
    · exact .inr (entry_setForm_self f hlt)
    · left
      rw [entry_of_size_le (Nat.le_of_not_lt hlt), entry_of_size_le]
      simpa using hlt
  · exact .inl (entry_setForm_of_ne f hid)

theorem entry_setAlias_cases (t : TypeTable) (slot : TypeId) (name : String) (target id : TypeId) :
    (t.setAlias slot name target).entry id = t.entry id ∨
      (t.setAlias slot name target).entry id = ⟨t.form target, some ⟨name, target⟩⟩ := by
  by_cases hid : id = slot
  · subst hid
    by_cases hlt : id < t.size
    · exact .inr (entry_setAlias_self name target hlt)
    · left
      rw [entry_of_size_le (Nat.le_of_not_lt hlt), entry_of_size_le]
      simpa using hlt
  · exact .inl (entry_setAlias_of_ne name target hid)

def IsOpen (t : TypeTable) (id : TypeId) : Prop := t.entry id = ⟨.pending, none⟩

structure Fills (t u : TypeTable) : Prop where
  size_le : t.size ≤ u.size
  entry_eq : ∀ {id}, id < t.size → ¬ t.IsOpen id → u.entry id = t.entry id
  lookup_eq : ∀ {f id}, t.interned.lookup f = some id → u.interned.lookup f = some id

theorem Grows.fills (h : t.Grows u) : t.Fills u :=
  ⟨h.size_le, fun hid _ => h.entry_eq hid, h.lookup_eq⟩

namespace Fills

theorem trans (h : t.Fills u) (h' : u.Fills v) : t.Fills v where
  size_le := Nat.le_trans h.size_le h'.size_le
  entry_eq hid hopen := by
    have heq := h.entry_eq hid hopen
    rw [← heq]
    exact h'.entry_eq (Nat.lt_of_lt_of_le hid h.size_le) (by rwa [IsOpen, heq])
  lookup_eq hf := h'.lookup_eq (h.lookup_eq hf)

end Fills

theorem formAt_eq_of_closed (hentry : ∀ {id}, ¬ t.IsOpen id → u.entry id = t.entry id) {hops : Nat}
    (hf : t.formAt hops id ≠ .pending) : u.formAt hops id = t.formAt hops id := by
  have hopen : ¬ t.IsOpen id := by
    intro hopen
    rw [formAt_of_alias_none (by rw [alias?, hopen]), hopen] at hf
    exact hf rfl
  induction hops generalizing id with
  | zero => rw [formAt, formAt, hentry hopen]
  | succ hops ih =>
    rw [formAt] at hf
    rw [formAt, formAt, hentry hopen]
    split
    · next a he =>
      rw [he] at hf
      by_cases hself : a.declared = id
      · rw [if_pos hself, if_pos hself]
      · simp only [if_neg hself] at hf ⊢
        apply ih hf
        intro hopen'
        rw [formAt_of_alias_none (by rw [alias?, hopen']), hopen'] at hf
        exact hf rfl
    · rfl

theorem lt_size_of_not_isOpen (h : ¬ t.IsOpen id) : id < t.size := by
  apply Nat.lt_of_not_le
  intro hle
  exact h (entry_of_size_le hle)

theorem Fills.formAt_eq (h : t.Fills u) {hops : Nat} (hf : t.formAt hops id ≠ .pending) :
    u.formAt hops id = t.formAt hops id :=
  formAt_eq_of_closed (fun hopen => h.entry_eq (lt_size_of_not_isOpen hopen) hopen) hf

theorem Fills.form_eq (h : t.Fills u) (hf : t.form id ≠ .pending) : u.form id = t.form id :=
  h.formAt_eq hf

theorem fills_setForm (h : t.IsOpen slot) (f : Form) : t.Fills (t.setForm slot f) where
  size_le := by simp
  entry_eq _ hopen := entry_setForm_of_ne f fun heq => hopen (heq ▸ h)
  lookup_eq hf := hf

theorem fills_setAlias (h : t.IsOpen slot) (name : String) (target : TypeId) :
    t.Fills (t.setAlias slot name target) where
  size_le := by simp
  entry_eq _ hopen := entry_setAlias_of_ne name target fun heq => hopen (heq ▸ h)
  lookup_eq hf := hf

theorem Grows.setForm (h : t.Grows u) (hslot : t.size ≤ slot) (f : Form) :
    t.Grows (u.setForm slot f) where
  size_le := by simpa using h.size_le
  entry_eq hid := by
    rw [entry_setForm_of_ne f (Nat.ne_of_lt (Nat.lt_of_lt_of_le hid hslot)), h.entry_eq hid]
  lookup_eq := h.lookup_eq

theorem Grows.setAlias (h : t.Grows u) (hslot : t.size ≤ slot) (name : String) (target : TypeId) :
    t.Grows (u.setAlias slot name target) where
  size_le := by simpa using h.size_le
  entry_eq hid := by
    rw [entry_setAlias_of_ne name target (Nat.ne_of_lt (Nat.lt_of_lt_of_le hid hslot)),
      h.entry_eq hid]
  lookup_eq := h.lookup_eq

end TypeTable

/-- What a type is found by: the form it is interned under, or the declaration it belongs to. -/
inductive Handle
  | form (f : Form)
  | declaration (key : FileId × Nat)
  deriving DecidableEq

namespace Bindings

variable {b c e : Bindings}

def find (b : Bindings) : Handle → Option TypeId
  | .form f => b.table.interned.lookup f
  | .declaration key => b.declared.lookup key

structure Grows (b c : Bindings) : Prop where
  table : b.table.Grows c.table
  declared : ∀ {key slot}, b.declared.lookup key = some slot → c.declared.lookup key = some slot
  find_old : ∀ {handle id}, c.find handle = some id → id < b.table.size → b.find handle = some id

namespace Grows

theorem refl (b : Bindings) : b.Grows b := ⟨.refl b.table, id, fun h _ => h⟩

theorem trans (h : b.Grows c) (h' : c.Grows e) : b.Grows e where
  table := h.table.trans h'.table
  declared hk := h'.declared (h.declared hk)
  find_old he hid := h.find_old (h'.find_old he (Nat.lt_of_lt_of_le hid h.table.size_le)) hid

theorem find (h : b.Grows c) {handle : Handle} {id : TypeId} (hb : b.find handle = some id) :
    c.find handle = some id := by
  cases handle with
  | form f => exact h.table.lookup_eq hb
  | declaration key => exact h.declared hb

theorem fillInterface (h : b.Grows c) {slot : TypeId} (hslot : b.table.size ≤ slot)
    (object : ObjectType) : b.Grows (c.fillInterface slot object) := by
  refine ⟨h.table.setForm hslot _, h.declared, fun {handle id} hfind => ?_⟩
  apply h.find_old
  cases handle <;> exact hfind

theorem fillAlias (h : b.Grows c) {slot : TypeId} (hslot : b.table.size ≤ slot) (name : String)
    (body : TypeId) : b.Grows (c.fillAlias slot name body) := by
  rw [Bindings.fillAlias]
  split
  · refine ⟨h.table.setForm hslot _, h.declared, fun {handle id} hfind => ?_⟩
    apply h.find_old
    cases handle <;> exact hfind
  · refine ⟨h.table.setAlias hslot _ _, h.declared, fun {handle id} hfind => ?_⟩
    apply h.find_old
    cases handle <;> exact hfind

end Grows

theorem grows_addForm (b : Bindings) (f : Form) :
    b.Grows { b with table := (b.table.addForm f).2 } := by
  refine ⟨TypeTable.grows_addForm b.table f, id, fun {handle id} hfind _ => ?_⟩
  cases handle <;> exact hfind

theorem grows_intern (b : Bindings) (f : Form) :
    b.Grows { b with table := (b.table.intern f).2 } := by
  refine ⟨TypeTable.grows_intern b.table f, id, fun {handle id} hfind hid => ?_⟩
  cases handle with
  | declaration key => exact hfind
  | form g =>
    cases hf : b.table.interned.lookup f with
    | some old => rwa [TypeTable.intern_of_lookup hf] at hfind
    | none =>
      rw [TypeTable.intern_of_lookup_none hf] at hfind
      change ((f, b.table.size) :: b.table.interned).lookup g = some id at hfind
      by_cases hgf : g = f
      · subst hgf
        rw [List.lookup_cons_self] at hfind
        exact absurd (Option.some.inj hfind) (Nat.ne_of_gt hid)
      · rwa [List.lookup_cons, beq_false_of_ne hgf] at hfind

/-- Later bindings: slots that were open may be filled, and all else stays. -/
structure Settles (b c : Bindings) : Prop where
  table : b.table.Fills c.table
  declared : ∀ {key slot}, b.declared.lookup key = some slot → c.declared.lookup key = some slot

theorem Grows.settles (h : b.Grows c) : b.Settles c := ⟨h.table.fills, h.declared⟩

theorem Settles.trans (h : b.Settles c) (h' : c.Settles e) : b.Settles e :=
  ⟨h.table.trans h'.table, fun hk => h'.declared (h.declared hk)⟩

theorem settles_fillInterface {slot : TypeId} (h : b.table.IsOpen slot) (object : ObjectType) :
    b.Settles (b.fillInterface slot object) :=
  ⟨TypeTable.fills_setForm h _, id⟩

theorem settles_fillAlias {slot : TypeId} (h : b.table.IsOpen slot) (name : String)
    (body : TypeId) : b.Settles (b.fillAlias slot name body) := by
  rw [fillAlias]
  split
  · exact ⟨TypeTable.fills_setForm h _, id⟩
  · exact ⟨TypeTable.fills_setAlias h _ _, id⟩

theorem isOpen_reserve (b : Bindings) (d : Declaration) :
    (b.reserve d).table.IsOpen b.table.size :=
  TypeTable.entry_addForm_self b.table .pending

@[simp] theorem size_declare (b : Bindings) (d : Declaration) (f : Form) :
    (b.declare d f).table.size = b.table.size + 1 :=
  TypeTable.size_addForm b.table f

@[simp] theorem size_fillInterface (b : Bindings) (slot : TypeId) (object : ObjectType) :
    (b.fillInterface slot object).table.size = b.table.size :=
  TypeTable.size_setForm _ _ _

@[simp] theorem size_fillAlias (b : Bindings) (slot : TypeId) (name : String) (body : TypeId) :
    (b.fillAlias slot name body).table.size = b.table.size := by
  rw [fillAlias]
  split
  · exact TypeTable.size_setForm _ _ _
  · exact TypeTable.size_setAlias _ _ _ _

theorem declared_fillAlias (b : Bindings) (slot : TypeId) (name : String) (body : TypeId) :
    (b.fillAlias slot name body).declared = b.declared := by
  rw [fillAlias]
  split
  · rfl
  · rfl

theorem size_lt_reserve (b : Bindings) (d : Declaration) :
    b.table.size < (b.reserve d).table.size := by
  simp [reserve]

theorem find_fillInterface (b : Bindings) (slot : TypeId) (object : ObjectType) (handle : Handle) :
    (b.fillInterface slot object).find handle = b.find handle := by
  cases handle <;> rfl

theorem find_fillAlias (b : Bindings) (slot : TypeId) (name : String) (body : TypeId)
    (handle : Handle) : (b.fillAlias slot name body).find handle = b.find handle := by
  rw [fillAlias]
  split <;> cases handle <;> rfl

theorem entry_fillAlias_of_ne {slot id : TypeId} (h : id ≠ slot) (name : String) (body : TypeId) :
    (b.fillAlias slot name body).table.entry id = b.table.entry id := by
  rw [fillAlias]
  split
  · exact TypeTable.entry_setForm_of_ne _ h
  · exact TypeTable.entry_setAlias_of_ne _ _ h

section Fill

variable {slot : TypeId} (hlt : slot < b.table.size)

include hlt

theorem entry_fillInterface_self (hopen : b.table.IsOpen slot) (object : ObjectType) :
    (b.fillInterface slot object).table.entry slot = ⟨.object object, none⟩ := by
  change (b.table.setForm slot _).entry slot = _
  rw [TypeTable.entry_setForm_self _ hlt, hopen]

theorem entry_fillAlias_self (hopen : b.table.IsOpen slot) (name : String) :
    (b.fillAlias slot name slot).table.entry slot = ⟨.primitive .any, none⟩ := by
  rw [fillAlias, if_pos rfl, TypeTable.entry_setForm_self _ hlt, hopen]

theorem entry_fillAlias_target {body : TypeId} (hbody : body ≠ slot) (name : String) :
    (b.fillAlias slot name body).table.entry slot = ⟨b.table.form body, some ⟨name, body⟩⟩ := by
  rw [fillAlias, if_neg hbody, TypeTable.entry_setAlias_self _ _ hlt]

end Fill

theorem Grows.isOpen {d : Declaration} (h : (b.reserve d).Grows c) :
    c.table.IsOpen b.table.size := by
  rw [TypeTable.IsOpen, h.table.entry_eq (size_lt_reserve b d)]
  exact isOpen_reserve b d

theorem lookup_declare_of_ne {d : Declaration} {key : FileId × Nat} (f : Form) (h : key ≠ d.key) :
    (b.declare d f).declared.lookup key = b.declared.lookup key := by
  rw [declare, List.lookup_cons, beq_false_of_ne h]

theorem lookup_declare_self (b : Bindings) (d : Declaration) (f : Form) :
    (b.declare d f).declared.lookup d.key = some b.table.size :=
  List.lookup_cons_self

theorem grows_declare {d : Declaration} (h : b.declared.lookup d.key = none) (f : Form) :
    b.Grows (b.declare d f) where
  table := TypeTable.grows_addForm b.table f
  declared {key slot} hk := by
    rw [lookup_declare_of_ne f]
    · exact hk
    · rintro rfl
      rw [h] at hk
      cases hk
  find_old {handle id} hfind hid := by
    cases handle with
    | form g => exact hfind
    | declaration key =>
      by_cases hkey : key = d.key
      · subst hkey
        change (b.declare d f).declared.lookup d.key = some id at hfind
        rw [lookup_declare_self] at hfind
        exact absurd (Option.some.inj hfind) (Nat.ne_of_gt hid)
      · change (b.declare d f).declared.lookup key = some id at hfind
        rwa [lookup_declare_of_ne f hkey] at hfind

end Bindings

theorem Program.closed_grows (P : Program) : P.Closed Bindings.Grows where
  refl := .refl
  trans := .trans
  add b f _ := Bindings.grows_addForm b f
  intern b f _ := Bindings.grows_intern b f
  leaf _ _ _ hl _ := Bindings.grows_declare hl _
  interface _ _ _ _ hl _ h :=
    ((Bindings.grows_declare hl _).trans h).fillInterface (Nat.le_refl _) _
  typeAlias _ _ _ _ hl _ h :=
    ((Bindings.grows_declare hl _).trans h).fillAlias (Nat.le_refl _) _ _

theorem Binder.kept_grows_answer {bind : Binder}
    (hbind : ∀ scope n, Kept Bindings.Grows (bind scope n)) (q : Question) :
    Kept Bindings.Grows (bind.answer q) :=
  kept_answer .refl (fun b f _ => Bindings.grows_addForm b f)
    (fun b f _ => Bindings.grows_intern b f) hbind q

theorem Binder.kept_grows {bind : Binder}
    (hbind : ∀ scope n, Kept Bindings.Grows (bind scope n)) {α : Type} (d : Dialogue α) :
    Kept Bindings.Grows (bind.run d) :=
  kept_run .refl .trans (fun b f _ => Bindings.grows_addForm b f)
    (fun b f _ => Bindings.grows_intern b f) hbind d

theorem Binder.kept_grows_declarationType {bind : Binder}
    (hbind : ∀ scope n, Kept Bindings.Grows (bind scope n)) (d : Declaration) :
    Kept Bindings.Grows (bind.declarationType d) := by
  intro b
  cases hl : b.declared.lookup d.key with
  | some type =>
    rw [after_declarationType_of_some hl]
    exact .refl b
  | none =>
    have hreserve := Bindings.grows_declare hl .pending
    obtain ⟨-, heq⟩ | ⟨-, heq⟩ | ⟨-, heq⟩ := after_declarationType_of_none bind hl
    · rw [heq, after_interfaceType]
      exact (hreserve.trans (kept_grows hbind _ _)).fillInterface (Nat.le_refl _) _
    · rw [heq, after_aliasType]
      exact (hreserve.trans (kept_grows hbind _ _)).fillAlias (Nat.le_refl _) _ _
    · rw [heq]
      exact Bindings.grows_declare hl _

theorem Binder.kept_grows_meantType {bind : Binder}
    (hbind : ∀ scope n, Kept Bindings.Grows (bind scope n)) (m : Meaning) :
    Kept Bindings.Grows (bind.meantType m) := by
  cases m with
  | type id => exact .refl
  | declaration d => exact kept_grows_declarationType hbind d

theorem Binder.after_declarationType_new {bind : Binder}
    (hbind : ∀ scope n, Kept Bindings.Grows (bind scope n)) {b : Bindings} {d : Declaration}
    (hl : b.declared.lookup d.key = none) :
    (b.after (bind.declarationType d)).1 = b.table.size ∧
      (b.after (bind.declarationType d)).2.declared.lookup d.key = some b.table.size ∧
      b.table.size < (b.after (bind.declarationType d)).2.table.size := by
  have hself := Bindings.lookup_declare_self b d
  have hlt := Bindings.size_lt_reserve b d
  obtain ⟨-, heq⟩ | ⟨-, heq⟩ | ⟨-, heq⟩ := after_declarationType_of_none bind hl
  · have hgrow := kept_grows hbind d.interfaceBody (b.reserve d)
    rw [heq, after_interfaceType]
    refine ⟨rfl, hgrow.declared (hself .pending), ?_⟩
    rw [Bindings.size_fillInterface]
    exact Nat.lt_of_lt_of_le hlt hgrow.table.size_le
  · have hgrow := kept_grows hbind d.aliasBody (b.reserve d)
    rw [heq, after_aliasType]
    refine ⟨rfl, ?_, ?_⟩
    · rw [Bindings.declared_fillAlias]
      exact hgrow.declared (hself .pending)
    · rw [Bindings.size_fillAlias]
      exact Nat.lt_of_lt_of_le hlt hgrow.table.size_le
  · rw [heq]
    exact ⟨rfl, hself _, by simp⟩

theorem Program.kept_grows_run (P : Program) (levels : Nat) {α : Type} (d : Dialogue α) :
    Binder.Kept Bindings.Grows ((P.binderAt levels).run d) :=
  Binder.kept_grows (P.closed_grows.kept_binderAt levels) d

end PropSchema
