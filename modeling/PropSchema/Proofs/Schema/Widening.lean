import PropSchema.Proofs.Ty.Union
import PropSchema.Schema.Extraction

namespace PropSchema.TypeTable

variable {t u : TypeTable} {ty w : TypeId} {expand : TypeId → Option (List PropDefinition)}
  {name : String} {required : Bool}

def leaf (t : TypeTable) (name : String) (required : Bool) (ty : TypeId) : PropDefinition :=
  .plain name (Label.clean (t.display (t.declared ty))) required

theorem propAt_succ (nesting : Nat) :
    t.propAt expand name required (nesting + 1) ty =
      if Label.isAtomic (t.display (t.declared ty)) then some (t.leaf name required ty)
      else t.propByForm expand (t.propAt expand name required nesting) name required ty := rfl

theorem eq_union_of_kind {f : Form} (h : f.kind = .union) : ∃ parts, f = .union parts := by
  cases f with
  | union parts => exact ⟨parts, rfl⟩
  | object o => simp only [Form.kind] at h; grind
  | _ => simp [Form.kind] at h

theorem literal?_of_kind {f : Form} (h : f.kind = .enumLiteral) : ∃ value, f.literal? = some value := by
  cases f with
  | stringLiteral value => exact ⟨_, rfl⟩
  | numberLiteral value => exact ⟨_, rfl⟩
  | booleanLiteral value => exact ⟨_, rfl⟩
  | object o => simp only [Form.kind] at h; grind
  | _ => simp [Form.kind] at h

theorem variants_of_not_union (h : (t.form ty).kind ≠ .union) : t.variants ty = [] := by
  rw [variants]
  split
  · next parts hf => rw [hf] at h; exact absurd rfl h
  · rfl

theorem unionShape_of_not_union (h : (t.form ty).kind ≠ .union) :
    t.unionShape ty = .mixed [] := by
  simp [unionShape, variants_of_not_union h]

theorem propByForm_of_not_union (h : (t.form ty).kind ≠ .union)
    (nested nested' : TypeId → Option PropDefinition) :
    t.propByForm expand nested name required ty = t.propByForm expand nested' name required ty := by
  simp only [propByForm, unionShape_of_not_union h]

theorem propAt_of_not_union (h : (t.form ty).kind ≠ .union) (m n : Nat) :
    t.propAt expand name required (m + 1) ty = t.propAt expand name required (n + 1) ty := by
  rw [propAt_succ, propAt_succ, propByForm_of_not_union h]

theorem propByForm_of_union (h : t.kind (t.declared ty) = .union)
    (hw : t.kind (t.declared w) = .union) (hshape : t.unionShape w = t.unionShape ty)
    (nested : TypeId → Option PropDefinition) :
    t.propByForm expand nested name required w = t.propByForm expand nested name required ty := by
  simp only [propByForm, h, hw, hshape]

theorem kind_declared_of_form (ht : t.WellFormed) (h : t.form ty ≠ .pending) :
    t.kind (t.declared ty) = (t.form ty).kind := by
  have h' : t.form (t.declared ty) = t.form ty := ht.form_declared h
  rw [kind, ht.form_declared (h' ▸ h), h']

theorem unionShape_of_literal {parts : List TypeId} (hw : t.form w = .union parts)
    (hp : t.present parts = [ty]) {value : String} (hl : (t.form ty).literal? = some value)
    (hv : value ≠ "") : t.unionShape w = .literals [value] := by
  have hlit : (t.form ty).isLiteral = true := by
    cases hf : t.form ty <;> simp [hf, Form.literal?] at hl <;> rfl
  simp only [present] at hp
  simp [unionShape, variants, hw, hp, hlit, optionText, hl, hv]

theorem unionShape_of_other {parts : List TypeId} (hw : t.form w = .union parts)
    (hp : t.present parts = [ty]) (hl : (t.form ty).isLiteral = false) :
    t.unionShape w = .single ty := by
  simp only [present] at hp
  simp [unionShape, variants, hw, hp, hl]

namespace Widened

theorem declared_eq (h : Widened t u ty w) : u.declared w = w := by
  obtain ⟨parts, he, -⟩ := h.entry_eq
  exact declared_of_entry he

theorem kind_eq (h : Widened t u ty w) : u.kind (u.declared w) = .union := by
  obtain ⟨parts, he, -⟩ := h.entry_eq
  rw [h.declared_eq, kind, h.declared_eq, form_of_entry he]
  rfl

theorem constituents_of_not_union (h : (t.form ty).kind ≠ .union)
    (hnever : t.form ty ≠ .primitive .never) : t.constituents ty = [ty] := by
  rw [constituents]
  split
  · next parts hf => rw [hf] at h; exact absurd rfl h
  · next hf => exact absurd hf hnever
  · rfl

theorem present_eq (h : Widened t u ty w) (hkind : (u.form ty).kind ≠ .union)
    (hnull : (u.form ty).isNullish = false) (hnever : u.form ty ≠ .primitive .never) :
    ∃ parts, u.form w = .union parts ∧ u.present parts = [ty] := by
  obtain ⟨parts, he, hp⟩ := h.entry_eq
  refine ⟨parts, form_of_entry he, ?_⟩
  rw [hp, constituents_of_not_union hkind hnever]
  simp [present, hnull]

theorem propByForm_of_kind_union (h : Widened t u ty w) (hkind : (u.form ty).kind = .union)
    (nested : TypeId → Option PropDefinition) :
    u.propByForm expand nested name required w =
      u.propByForm expand nested name required ty := by
  obtain ⟨parts, he, hp⟩ := h.entry_eq
  obtain ⟨own, hown⟩ := eq_union_of_kind hkind
  have hdecl : u.kind (u.declared ty) = .union := by
    rw [kind_declared_of_form h.wellFormed (by simp [hown]), hkind]
  apply propByForm_of_union hdecl h.kind_eq
  apply unionShape_eq_of_present
  rw [variants, form_of_entry he, variants, hown]
  change u.present parts = u.present own
  rw [hp, constituents, hown]

theorem propByForm_of_literal (h : Widened t u ty w) (hkind : (u.form ty).kind = .enumLiteral)
    (hne : (u.form ty).literal? ≠ some "") (nested : TypeId → Option PropDefinition) :
    u.propByForm expand nested name required w =
      u.propByForm expand nested name required ty := by
  obtain ⟨value, hvalue⟩ := literal?_of_kind hkind
  have hpending : u.form ty ≠ .pending := by
    intro hf
    simp [hf, Form.kind] at hkind
  have hnull : (u.form ty).isNullish = false := by
    cases hf : u.form ty <;> simp [hf, Form.kind, Form.isNullish] at hkind ⊢
  have hnever : u.form ty ≠ .primitive .never := by
    intro hf
    simp [hf, Form.kind] at hkind
  obtain ⟨parts, hw, hp⟩ := h.present_eq (by simp [hkind]) hnull hnever
  have hshape : u.unionShape w = .literals [value] :=
    unionShape_of_literal hw hp hvalue (by rintro rfl; exact hne hvalue)
  have hdecl : u.kind (u.declared ty) = .enumLiteral := by
    rw [kind_declared_of_form h.wellFormed hpending, hkind]
  have htext : u.optionText (u.declared ty) = value := by
    simp only [optionText, h.wellFormed.form_declared hpending, hvalue]
  simp only [propByForm, h.kind_eq, hshape, hdecl, htext]

theorem propByForm_of_other (h : Widened t u ty w) (hunion : (u.form ty).kind ≠ .union)
    (hlit : (u.form ty).kind ≠ .enumLiteral) (hnull : (u.form ty).isNullish = false)
    (hnever : u.form ty ≠ .primitive .never) (nested : TypeId → Option PropDefinition) :
    u.propByForm expand nested name required w = nested ty := by
  obtain ⟨parts, hw, hp⟩ := h.present_eq hunion hnull hnever
  have hnot : (u.form ty).isLiteral = false := by
    cases hf : u.form ty <;> simp [hf, Form.kind, Form.isLiteral] at hlit ⊢
  simp only [propByForm, h.kind_eq, unionShape_of_other hw hp hnot]

theorem propAt_eq_iff_of_atomic (h : Widened t u ty w)
    (hw : Label.isAtomic (u.display w) = true) (nesting : Nat) :
    u.propAt expand name required (nesting + 1) w = u.propAt expand name required (nesting + 1) ty ↔
      if Label.isAtomic (u.display (u.declared ty)) then
        Label.clean (u.display w) = Label.clean (u.display (u.declared ty))
      else
        u.propByForm expand (u.propAt expand name required nesting) name required ty =
          some (u.leaf name required w) := by
  rw [propAt_succ, propAt_succ, h.declared_eq, if_pos hw]
  split
  · simp [leaf, PropDefinition.plain, h.declared_eq]
  · exact eq_comm

theorem propAt_eq_iff_of_not_atomic (h : Widened t u ty w)
    (hnull : (u.form ty).isNullish = false) (hnever : u.form ty ≠ .primitive .never)
    (hne : (u.form ty).literal? ≠ some "") (hw : Label.isAtomic (u.display w) = false)
    (nesting : Nat) :
    u.propAt expand name required (nesting + 2) w = u.propAt expand name required (nesting + 2) ty ↔
      (Label.isAtomic (u.display (u.declared ty)) →
        (u.form ty).kind = .union ∨ (u.form ty).kind = .enumLiteral →
          u.propByForm expand (u.propAt expand name required (nesting + 1)) name required ty =
            some (u.leaf name required ty)) := by
  rw [propAt_succ, h.declared_eq, if_neg (by simp [hw])]
  by_cases hunion : (u.form ty).kind = .union
  · rw [h.propByForm_of_kind_union hunion, propAt_succ]
    split
    · next hs => simp [hs, hunion]
    · next hs => simp [hs]
  by_cases hlit : (u.form ty).kind = .enumLiteral
  · rw [h.propByForm_of_literal hlit hne, propAt_succ]
    split
    · next hs => simp [hs, hlit]
    · next hs => simp [hs]
  · rw [h.propByForm_of_other hunion hlit hnull hnever, propAt_of_not_union hunion nesting (nesting + 1)]
    simp [hunion, hlit]

end Widened

/-- Whether the text of a type and that of its widening `w` agree on the prop they give: both give
the same label, or neither overrules the structure. -/
def TextsAgree (t : TypeTable) (trail : Trail) (name : String) (required : Bool) (ty w : TypeId) :
    Prop :=
  let byForm := t.propByForm (t.propsWithin trail)
    (t.propAt (t.propsWithin trail) name required t.size) name required ty
  if Label.isAtomic (t.display w) then
    if Label.isAtomic (t.display (t.declared ty)) then
      Label.clean (t.display w) = Label.clean (t.display (t.declared ty))
    else byForm = some (t.leaf name required w)
  else
    Label.isAtomic (t.display (t.declared ty)) →
      (t.form ty).kind = .union ∨ (t.form ty).kind = .enumLiteral →
        byForm = some (t.leaf name required ty)

theorem propWithin_optional_iff (ht : t.WellFormed) (hty : ty < t.size)
    (hnull : (t.form ty).isNullish = false) (hnever : t.form ty ≠ .primitive .never)
    (hne : (t.form ty).literal? ≠ some "") (trail : Trail) (name : String) (optional : Bool) :
    let (w, u) := t.optional ty
    u.propWithin trail name optional w = u.propWithin trail name optional ty ↔
      u.TextsAgree trail name (! optional) ty w := by
  have h := ht.widened_optional hty hnull hnever
  generalize t.optional ty = widened at h
  obtain ⟨w, u⟩ := widened
  have hform : u.form ty = t.form ty := ht.form_eq h.grows hty
  rw [← hform] at hnull hnever hne
  -- a table with a type in it has room for one union inside another
  obtain ⟨nesting, hsize⟩ : ∃ nesting, u.size = nesting + 1 :=
    Nat.exists_eq_add_one.2 (Nat.lt_of_lt_of_le (Nat.zero_lt_of_lt hty) h.grows.size_le)
  simp only [propWithin, unionLevels, TextsAgree, hsize]
  cases hw : Label.isAtomic (u.display w) with
  | true => exact h.propAt_eq_iff_of_atomic hw (nesting + 1)
  | false => exact h.propAt_eq_iff_of_not_atomic hnull hnever hne hw nesting

theorem propWithin_optional_boolean :
    let (ty, t) := ({} : TypeTable).boolean
    let (w, u) := t.optional ty
    u.propWithin [] "open" true w = u.propWithin [] "open" true ty := by
  have hty : 2 < ({} : TypeTable).boolean.2.size := by decide +kernel
  refine (propWithin_optional_iff WellFormed.empty.boolean hty (by decide +kernel)
    (by decide +kernel) (by decide +kernel) [] "open" true).2 ?_
  intro _ _
  rfl

def promiseTable : TypeTable :=
  (({} : TypeTable).primitive .string).2.addForm (.reference "Promise" [0]) |>.2

/-- The text `Promise<string> | undefined` starts as that of a built-in type does, so the union is
shown by its whole text. -/
theorem exists_propWithin_optional_ne :
    ∃ (t : TypeTable) (ty : TypeId), t.WellFormed ∧ ty < t.size ∧ (t.form ty).isNullish = false ∧
      t.form ty ≠ .primitive .never ∧ (t.form ty).literal? ≠ some "" ∧
      let (w, u) := t.optional ty
      u.propWithin [] "value" true w ≠ u.propWithin [] "value" true ty := by
  refine ⟨promiseTable, 1, ?_, by decide +kernel, by decide +kernel, by decide +kernel,
    by decide +kernel, ?_⟩
  · exact (WellFormed.empty.intern (fun _ h => by cases h)).addForm (fun _ h => by cases h)
  · intro h
    have htype := congrArg (Option.map (·.type)) h
    revert htype
    decide +kernel

end PropSchema.TypeTable
