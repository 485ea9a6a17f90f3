import PropSchema.Ty.Table

namespace PropSchema

def Form.Proper : Form → Prop
  | .pending => False
  | .union parts => parts.Nodup ∧ 2 ≤ parts.length
  | _ => True

theorem Form.proper_of_isPlain {f : Form} (h : f.isPlain) : f.Proper := by
  cases f with
  | pending => cases h
  | union parts => cases h
  | _ => trivial

namespace TypeTable

variable {t u v : TypeTable} {id : TypeId} {f : Form}

theorem entry_of_size_le (h : t.size ≤ id) : t.entry id = ⟨.pending, none⟩ := by
  have h' : t.entries.size ≤ id := h
  simp [entry, Array.getD, Nat.not_lt.2 h']

theorem lt_size_of_form_ne (h : (t.entry id).form ≠ .pending) : id < t.size := by
  apply Nat.lt_of_not_le
  intro hle
  rw [entry_of_size_le hle] at h
  exact h rfl

@[simp] theorem addForm_fst (t : TypeTable) (f : Form) : (t.addForm f).1 = t.size := rfl

@[simp] theorem size_addForm (t : TypeTable) (f : Form) : (t.addForm f).2.size = t.size + 1 := by
  simp [addForm, size]

@[simp] theorem interned_addForm (t : TypeTable) (f : Form) :
    (t.addForm f).2.interned = t.interned := rfl

@[simp] theorem entry_addForm_self (t : TypeTable) (f : Form) :
    (t.addForm f).2.entry t.size = ⟨f, none⟩ := by
  simp [addForm, entry, size, Array.getD]

theorem entry_addForm_of_lt (f : Form) (h : id < t.size) :
    (t.addForm f).2.entry id = t.entry id := by
  have h' : id < t.entries.size := h
  simp [addForm, entry, Array.getD, Array.getElem_push, h', Nat.lt_succ_of_lt h']

theorem entry_addForm_cases (t : TypeTable) (f : Form) (id : TypeId) :
    (t.addForm f).2.entry id = t.entry id ∨
      id = t.size ∧ (t.addForm f).2.entry id = ⟨f, none⟩ := by
  obtain hlt | rfl | hgt := Nat.lt_trichotomy id t.size
  · exact .inl (entry_addForm_of_lt f hlt)
  · exact .inr ⟨rfl, entry_addForm_self t f⟩
  · left
    rw [entry_of_size_le (Nat.le_of_lt hgt), entry_of_size_le]
    rw [size_addForm]
    exact hgt

structure Grows (t u : TypeTable) : Prop where
  size_le : t.size ≤ u.size
  entry_eq : ∀ {id}, id < t.size → u.entry id = t.entry id
  lookup_eq : ∀ {f id}, t.interned.lookup f = some id → u.interned.lookup f = some id

namespace Grows

theorem refl (t : TypeTable) : t.Grows t := ⟨Nat.le_refl _, fun _ => rfl, fun h => h⟩

theorem trans (h : t.Grows u) (h' : u.Grows v) : t.Grows v where
  size_le := Nat.le_trans h.size_le h'.size_le
  entry_eq hid := by rw [h'.entry_eq (Nat.lt_of_lt_of_le hid h.size_le), h.entry_eq hid]
  lookup_eq hf := h'.lookup_eq (h.lookup_eq hf)

theorem alias?_eq (h : t.Grows u) (hid : id < t.size) : u.alias? id = t.alias? id := by
  rw [alias?, alias?, h.entry_eq hid]

end Grows

theorem grows_addForm (t : TypeTable) (f : Form) : t.Grows (t.addForm f).2 where
  size_le := by simp
  entry_eq h := entry_addForm_of_lt f h
  lookup_eq h := h

theorem intern_of_lookup (h : t.interned.lookup f = some id) : t.intern f = (id, t) := by
  rw [intern, h]

theorem intern_of_lookup_none (h : t.interned.lookup f = none) :
    t.intern f = (t.size, { (t.addForm f).2 with interned := (f, t.size) :: t.interned }) := by
  rw [intern, h]
  rfl

theorem grows_intern (t : TypeTable) (f : Form) : t.Grows (t.intern f).2 := by
  cases h : t.interned.lookup f with
  | some id => rw [intern_of_lookup h]; exact .refl t
  | none =>
    rw [intern_of_lookup_none h]
    refine ⟨by simp [size, addForm], entry_addForm_of_lt f, fun {g id} hg => ?_⟩
    have hne : (g == f) = false := by
      apply beq_false_of_ne
      rintro rfl
      simp [h] at hg
    simpa [List.lookup_cons, hne] using hg

theorem lookup_intern (t : TypeTable) (f : Form) :
    (t.intern f).2.interned.lookup f = some (t.intern f).1 := by
  cases h : t.interned.lookup f with
  | some id => rw [intern_of_lookup h]; exact h
  | none => rw [intern_of_lookup_none h]; simp

def InternSound (t : TypeTable) : Prop :=
  ∀ f id, t.interned.lookup f = some id → id < t.size ∧ t.entry id = ⟨f, none⟩

theorem InternSound.intern (h : t.InternSound) (f : Form) : (t.intern f).2.InternSound := by
  intro g id hg
  cases hf : t.interned.lookup f with
  | some old => rw [intern_of_lookup hf] at hg ⊢; exact h g id hg
  | none =>
    rw [intern_of_lookup_none hf] at hg ⊢
    by_cases hgf : g = f
    · subst hgf
      simp only [List.lookup_cons_self, Option.some.injEq] at hg
      subst hg
      exact ⟨by simp [size, addForm], entry_addForm_self t g⟩
    · have hne : (g == f) = false := beq_false_of_ne hgf
      simp only [List.lookup_cons, hne] at hg
      obtain ⟨hlt, he⟩ := h g id hg
      exact ⟨Nat.lt_of_lt_of_le hlt (grows_addForm t f).size_le,
        (entry_addForm_of_lt f hlt).trans he⟩

theorem InternSound.addForm (h : t.InternSound) (f : Form) : (t.addForm f).2.InternSound := by
  intro g id hg
  obtain ⟨hlt, he⟩ := h g id hg
  exact ⟨Nat.lt_of_lt_of_le hlt (grows_addForm t f).size_le, (entry_addForm_of_lt f hlt).trans he⟩

theorem InternSound.entry_intern (h : t.InternSound) (f : Form) :
    (t.intern f).1 < (t.intern f).2.size ∧ (t.intern f).2.entry (t.intern f).1 = ⟨f, none⟩ :=
  h.intern f f _ (lookup_intern t f)

theorem formAt_of_ne_pending (h : (t.entry id).form ≠ .pending) (hops : Nat) :
    t.formAt hops id = (t.entry id).form := by
  cases hops with
  | zero => rfl
  | succ hops =>
    rw [formAt]
    split
    · next he => rw [he] at h; exact absurd rfl h
    · rfl

theorem formAt_of_alias_none (h : t.alias? id = none) (hops : Nat) :
    t.formAt hops id = (t.entry id).form := by
  cases hops with
  | zero => rfl
  | succ hops =>
    rw [formAt]
    split
    · next he => rw [alias?, he] at h; cases h
    · rfl

theorem formAt_eq_of_grows (h : t.Grows u)
    (hlt : ∀ id a, t.alias? id = some a → a.declared < t.size) (hid : id < t.size) (hops : Nat) :
    u.formAt hops id = t.formAt hops id := by
  induction hops generalizing id with
  | zero => rw [formAt, formAt, h.entry_eq hid]
  | succ hops ih =>
    rw [formAt, formAt, h.entry_eq hid]
    split
    · next a he =>
      rw [ih (hlt id a (by rw [alias?, he]))]
    · rfl

theorem form_of_entry (h : t.entry id = ⟨f, none⟩) : t.form id = f := by
  rw [form, formAt_of_alias_none (by rw [alias?, h]), h]

theorem membersAt_of_object {o : ObjectType} (h : t.form id = .object o) (levels : Nat) :
    t.membersAt (levels + 1) id = o.members := by
  rw [membersAt, h, formMembers]

theorem members_of_object {o : ObjectType} (h : t.form id = .object o) :
    t.members id = o.members :=
  membersAt_of_object h 32

theorem declared_of_entry (h : t.entry id = ⟨f, none⟩) : t.declared id = id := by
  rw [declared, alias?, h]

/-- A table as its constructors make it: what is interned has its form, an alias refers to a type
of the table and has its form, and a union has at least two parts and none of them twice. -/
structure WellFormed (t : TypeTable) : Prop where
  intern_sound : t.InternSound
  alias_lt : ∀ id a, t.alias? id = some a → a.declared < t.size
  alias_form : ∀ id a, t.alias? id = some a → t.form id ≠ .pending → t.form a.declared = t.form id
  union_parts : ∀ id parts, t.form id = .union parts → parts.Nodup ∧ 2 ≤ parts.length

namespace WellFormed

theorem form_eq (ht : t.WellFormed) (h : t.Grows u) (hid : id < t.size) : u.form id = t.form id :=
  formAt_eq_of_grows h ht.alias_lt hid aliasHops

theorem form_declared (ht : t.WellFormed) (h : t.form id ≠ .pending) :
    t.form (t.declared id) = t.form id := by
  rw [declared]
  cases ha : t.alias? id with
  | none => rfl
  | some a => exact ht.alias_form id a ha h

theorem empty : WellFormed {} where
  intern_sound f id h := by simp at h
  alias_lt id a h := by simp [alias?, entry_of_size_le (t := {}) (Nat.zero_le _)] at h
  alias_form id a h := by simp [alias?, entry_of_size_le (t := {}) (Nat.zero_le _)] at h
  union_parts id parts h := by
    simp [form_of_entry (entry_of_size_le (t := {}) (Nat.zero_le _))] at h

theorem of_new (ht : t.WellFormed) (h : t.Grows u) (hu : u.InternSound)
    (hnew : ∀ id, t.size ≤ id → id < u.size → u.alias? id = none ∧
      ∀ parts, (u.entry id).form = .union parts → parts.Nodup ∧ 2 ≤ parts.length) :
    u.WellFormed := by
  have hcase : ∀ id, id < t.size ∨ u.alias? id = none ∧
      ∀ parts, u.form id = .union parts → parts.Nodup ∧ 2 ≤ parts.length := by
    intro id
    by_cases hid : id < t.size
    · exact .inl hid
    refine .inr ?_
    by_cases hid' : id < u.size
    · obtain ⟨ha, hp⟩ := hnew id (Nat.le_of_not_lt hid) hid'
      exact ⟨ha, fun parts hf => hp parts (by rwa [form, formAt_of_alias_none ha] at hf)⟩
    · have he := entry_of_size_le (Nat.le_of_not_lt hid')
      exact ⟨by rw [alias?, he], fun parts hf => by rw [form_of_entry he] at hf; cases hf⟩
  refine ⟨hu, fun id a ha => ?_, fun id a ha hf => ?_, fun id parts hf => ?_⟩
  · obtain hid | ⟨hn, -⟩ := hcase id
    · exact Nat.lt_of_lt_of_le (ht.alias_lt id a (h.alias?_eq hid ▸ ha)) h.size_le
    · rw [hn] at ha; cases ha
  · obtain hid | ⟨hn, -⟩ := hcase id
    · rw [h.alias?_eq hid] at ha
      rw [ht.form_eq h hid] at hf ⊢
      rw [ht.form_eq h (ht.alias_lt id a ha), ht.alias_form id a ha hf]
    · rw [hn] at ha; cases ha
  · obtain hid | ⟨-, hp⟩ := hcase id
    · exact ht.union_parts id parts (ht.form_eq h hid ▸ hf)
    · exact hp parts hf

theorem addForm (ht : t.WellFormed)
    (hf : ∀ parts, f = .union parts → parts.Nodup ∧ 2 ≤ parts.length) :
    (t.addForm f).2.WellFormed := by
  refine ht.of_new (grows_addForm t f) (ht.intern_sound.addForm f) fun id hle hlt => ?_
  obtain rfl : id = t.size := Nat.le_antisymm (Nat.le_of_lt_succ (by simpa using hlt)) hle
  rw [alias?, entry_addForm_self]
  exact ⟨rfl, hf⟩

theorem intern (ht : t.WellFormed)
    (hf : ∀ parts, f = .union parts → parts.Nodup ∧ 2 ≤ parts.length) :
    (t.intern f).2.WellFormed := by
  refine ht.of_new (grows_intern t f) (ht.intern_sound.intern f) fun id hle hlt => ?_
  cases hl : t.interned.lookup f with
  | some old => rw [intern_of_lookup hl] at hlt; exact absurd hlt (Nat.not_lt.2 hle)
  | none =>
    obtain rfl : id = t.size := by
      rw [intern_of_lookup_none hl] at hlt
      exact Nat.le_antisymm (Nat.le_of_lt_succ (by simpa [size, TypeTable.addForm] using hlt)) hle
    obtain ⟨-, he⟩ := ht.intern_sound.entry_intern f
    rw [show (t.intern f).1 = t.size by rw [intern_of_lookup_none hl]] at he
    rw [alias?, he]
    exact ⟨rfl, hf⟩

end WellFormed

end TypeTable

end PropSchema
