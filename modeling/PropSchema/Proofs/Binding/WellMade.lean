import PropSchema.Proofs.Binding.Growth

namespace PropSchema

theorem Form.Proper.ne_pending {f : Form} (h : f.Proper) : f ≠ .pending := by
  rintro rfl
  exact h

theorem Declaration.proper_leafForm (d : Declaration) : d.leafForm.Proper := by
  rw [leafForm]
  split
  · exact trivial
  · exact trivial

namespace TypeTable

variable {t u : TypeTable} {slot : TypeId} {f : Form}

structure WellMade (t : TypeTable) : Prop where
  intern_sound : t.InternSound
  known : ∀ f id, t.interned.lookup f = some id → f ≠ .pending
  proper : ∀ id, (t.entry id).form ≠ .pending → (t.entry id).form.Proper

namespace WellMade

theorem empty : WellMade {} where
  intern_sound f id h := by simp at h
  known f id h := by simp at h
  proper id h := absurd (congrArg Entry.form (entry_of_size_le (t := {}) (Nat.zero_le id))) h

theorem proper_formAt (h : t.WellMade) (hops : Nat) (id : TypeId)
    (hne : t.formAt hops id ≠ .pending) : (t.formAt hops id).Proper := by
  induction hops generalizing id with
  | zero => exact h.proper id hne
  | succ hops ih =>
    rw [formAt] at hne ⊢
    split
    · next a he =>
      simp only [he] at hne
      split
      · next hself => exact absurd (if_pos hself) hne
      · next hself =>
        rw [if_neg hself] at hne
        exact ih _ hne
    · next hother =>
      split at hne
      · next a he => exact absurd he (hother a)
      · exact h.proper id hne

theorem addForm (h : t.WellMade) (hf : f ≠ .pending → f.Proper) : (t.addForm f).2.WellMade where
  intern_sound := h.intern_sound.addForm f
  known := h.known
  proper id hne := by
    obtain heq | ⟨-, heq⟩ := t.entry_addForm_cases f id
    · rw [heq] at hne ⊢
      exact h.proper id hne
    · rw [heq] at hne ⊢
      exact hf hne

theorem intern (h : t.WellMade) (hf : f.Proper) : (t.intern f).2.WellMade := by
  have hsound := h.intern_sound.intern f
  cases hl : t.interned.lookup f with
  | some id =>
    rw [intern_of_lookup hl]
    exact h
  | none =>
    rw [intern_of_lookup_none hl] at hsound ⊢
    refine ⟨hsound, fun g id hg => ?_, (h.addForm fun _ => hf).proper⟩
    by_cases hgf : g = f
    · exact hgf ▸ hf.ne_pending
    · rw [List.lookup_cons, beq_false_of_ne hgf] at hg
      exact h.known g id hg

theorem fill (h : t.WellMade) (hopen : t.IsOpen slot) (hsize : u.size = t.size)
    (hinterned : u.interned = t.interned) (hentry : ∀ id, id ≠ slot → u.entry id = t.entry id)
    (hf : (u.entry slot).form ≠ .pending → (u.entry slot).form.Proper) : u.WellMade where
  intern_sound f id hl := by
    rw [hinterned] at hl
    obtain ⟨hlt, heq⟩ := h.intern_sound f id hl
    rw [hsize, hentry id, heq]
    · exact ⟨hlt, rfl⟩
    · rintro rfl
      rw [IsOpen, heq] at hopen
      exact h.known f id hl (congrArg Entry.form hopen)
  known f id hl := h.known f id (hinterned ▸ hl)
  proper id hne := by
    by_cases hid : id = slot
    · subst hid
      exact hf hne
    · rw [hentry id hid] at hne ⊢
      exact h.proper id hne

end WellMade

end TypeTable

namespace Bindings

variable {b c e : Bindings}

/-- All that a run adds is well made, and it leaves no slot open that it reserves. -/
structure Builds (b c : Bindings) : Prop where
  grows : b.Grows c
  wellMade : b.table.WellMade → c.table.WellMade
  closed : ∀ id, b.table.size ≤ id → id < c.table.size → ¬ c.table.IsOpen id

namespace Builds

theorem refl (b : Bindings) : b.Builds b where
  grows := .refl b
  wellMade h := h
  closed _ hle hlt := absurd hlt (Nat.not_lt.2 hle)

theorem trans (h : b.Builds c) (h' : c.Builds e) : b.Builds e where
  grows := h.grows.trans h'.grows
  wellMade hb := h'.wellMade (h.wellMade hb)
  closed id hle hlt := by
    by_cases hid : id < c.table.size
    · rw [TypeTable.IsOpen, h'.grows.table.entry_eq hid]
      exact h.closed id hle hid
    · exact h'.closed id (Nat.le_of_not_lt hid) hlt

end Builds

theorem not_isOpen_addForm (t : TypeTable) {f : Form} (hf : f ≠ .pending) {id : TypeId}
    (hle : t.size ≤ id) (hlt : id < (t.addForm f).2.size) : ¬ (t.addForm f).2.IsOpen id := by
  rw [TypeTable.size_addForm] at hlt
  obtain rfl := Nat.le_antisymm (Nat.le_of_lt_succ hlt) hle
  rw [TypeTable.IsOpen, TypeTable.entry_addForm_self]
  exact fun heq => hf (congrArg Entry.form heq)

theorem builds_addForm (b : Bindings) {f : Form} (hf : f.Proper) :
    b.Builds { b with table := (b.table.addForm f).2 } where
  grows := grows_addForm b f
  wellMade h := h.addForm fun _ => hf
  closed _ := not_isOpen_addForm b.table hf.ne_pending

theorem builds_intern (b : Bindings) {f : Form} (hf : f.Proper) :
    b.Builds { b with table := (b.table.intern f).2 } where
  grows := grows_intern b f
  wellMade h := h.intern hf
  closed id hle hlt := by
    cases hl : b.table.interned.lookup f with
    | some old =>
      rw [TypeTable.intern_of_lookup hl] at hlt
      exact absurd hlt (Nat.not_lt.2 hle)
    | none =>
      rw [TypeTable.intern_of_lookup_none hl] at hlt ⊢
      exact not_isOpen_addForm b.table hf.ne_pending hle hlt

theorem builds_declare {d : Declaration} (hl : b.declared.lookup d.key = none) {f : Form}
    (hf : f.Proper) : b.Builds (b.declare d f) where
  grows := grows_declare hl f
  wellMade h := h.addForm fun _ => hf
  closed _ := not_isOpen_addForm b.table hf.ne_pending

theorem Builds.filled {d : Declaration} (h : (b.reserve d).Builds c) (hgrows : b.Grows e)
    (hsize : e.table.size = c.table.size) (hinterned : e.table.interned = c.table.interned)
    (hentry : ∀ id, id ≠ b.table.size → e.table.entry id = c.table.entry id)
    (hproper : c.table.WellMade → (e.table.entry b.table.size).form ≠ .pending →
      (e.table.entry b.table.size).form.Proper)
    (hclosed : ¬ e.table.IsOpen b.table.size) : b.Builds e where
  grows := hgrows
  wellMade hb := by
    have hc := h.wellMade (hb.addForm fun hne => absurd rfl hne)
    exact hc.fill h.grows.isOpen hsize hinterned hentry (hproper hc)
  closed id hle hlt := by
    by_cases hid : id = b.table.size
    · subst hid
      exact hclosed
    · rw [TypeTable.IsOpen, hentry id hid]
      apply h.closed id _ (hsize ▸ hlt)
      rw [reserve, size_declare]
      exact Nat.lt_of_le_of_ne hle (Ne.symm hid)

theorem builds_fillInterface {d : Declaration} (hl : b.declared.lookup d.key = none)
    (h : (b.reserve d).Builds c) (object : ObjectType) :
    b.Builds (c.fillInterface b.table.size object) := by
  have hlt := Nat.lt_of_lt_of_le (size_lt_reserve b d) h.grows.table.size_le
  have hself := TypeTable.entry_setForm_self (.object object) hlt
  apply h.filled
  · exact ((grows_declare hl _).trans h.grows).fillInterface (Nat.le_refl _) object
  · simp
  · rfl
  · exact fun id hid => TypeTable.entry_setForm_of_ne _ hid
  · intro _ _
    rw [fillInterface, hself]
    trivial
  · rw [TypeTable.IsOpen, fillInterface, hself]
    exact fun heq => Form.noConfusion (congrArg Entry.form heq)

theorem builds_fillAlias {d : Declaration} (hl : b.declared.lookup d.key = none)
    (h : (b.reserve d).Builds c) (name : String) (body : TypeId) :
    b.Builds (c.fillAlias b.table.size name body) := by
  have hlt := Nat.lt_of_lt_of_le (size_lt_reserve b d) h.grows.table.size_le
  have hany := TypeTable.entry_setForm_self (.primitive .any) hlt
  have halias := TypeTable.entry_setAlias_self name body hlt
  have hgrows := ((grows_declare hl _).trans h.grows).fillAlias (Nat.le_refl _) name body
  rw [fillAlias] at hgrows ⊢
  split
  · next heq =>
    rw [if_pos heq] at hgrows
    apply h.filled hgrows
    · simp
    · rfl
    · exact fun id hid => TypeTable.entry_setForm_of_ne _ hid
    · intro _ _
      rw [hany]
      trivial
    · rw [TypeTable.IsOpen, hany]
      exact fun heq => Form.noConfusion (congrArg Entry.form heq)
  · next hne =>
    rw [if_neg hne] at hgrows
    apply h.filled hgrows
    · simp
    · rfl
    · exact fun id hid => TypeTable.entry_setAlias_of_ne _ _ hid
    · intro hc hne
      rw [halias] at hne ⊢
      exact hc.proper_formAt _ _ hne
    · rw [TypeTable.IsOpen, halias]
      exact fun heq => Option.some_ne_none _ (congrArg Entry.aliasOf heq)

end Bindings

theorem Program.closed_builds (P : Program) : P.Closed Bindings.Builds where
  refl := .refl
  trans := .trans
  add b _ hf := Bindings.builds_addForm b hf
  intern b _ hf := Bindings.builds_intern b hf
  leaf _ d _ hl _ := Bindings.builds_declare hl d.proper_leafForm
  interface _ _ _ _ hl _ h := Bindings.builds_fillInterface hl h _
  typeAlias _ _ _ _ hl _ h := Bindings.builds_fillAlias hl h _ _

end PropSchema
