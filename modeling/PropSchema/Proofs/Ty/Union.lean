import PropSchema.Proofs.Ty.Table
import PropSchema.Ty.UnionShape

namespace PropSchema.TypeTable

variable {t u : TypeTable} {id ty : TypeId}

section Lists

variable {α : Type} [BEq α] [LawfulBEq α]

theorem eraseDups_of_nodup {l : List α} (h : l.Nodup) : l.eraseDups = l := by
  induction l with
  | nil => rfl
  | cons a l ih =>
    obtain ⟨ha, hl⟩ := List.nodup_cons.1 h
    have hfilter : l.filter (fun b => ! b == a) = l := by
      apply List.filter_eq_self.2
      intro b hb
      have hne : b ≠ a := fun hab => ha (hab ▸ hb)
      simpa using hne
    rw [List.eraseDups_cons, hfilter, ih hl]

theorem nodup_eraseDups (l : List α) : l.eraseDups.Nodup := by
  induction hn : l.length using Nat.strongRecOn generalizing l with
  | ind n ih =>
    cases l with
    | nil => exact List.nodup_nil
    | cons a l =>
      have hlen : (l.filter fun b => ! b == a).length < n := by
        rw [← hn]
        exact Nat.lt_succ_of_le (List.length_filter_le _ l)
      rw [List.eraseDups_cons]
      refine List.nodup_cons.2 ⟨fun ha => ?_, ih _ hlen _ rfl⟩
      rw [List.mem_eraseDups] at ha
      simpa using (List.mem_filter.1 ha).2

end Lists

theorem union_of_two_le {types : List TypeId}
    (h : 2 ≤ (types.flatMap t.constituents).eraseDups.length) :
    t.union types = t.intern (.union (types.flatMap t.constituents).eraseDups) := by
  rw [union]
  split
  · next hnil => rw [hnil] at h; cases h
  · next one hone => rw [hone] at h; simp at h
  · rfl

def unite (t : TypeTable) : List TypeId → TypeId × TypeTable
  | [] => t.primitive .never
  | [one] => (one, t)
  | parts => t.intern (.union parts)

theorem union_eq_unite (t : TypeTable) (types : List TypeId) :
    t.union types = t.unite (types.flatMap t.constituents).eraseDups := rfl

theorem union_cases (t : TypeTable) (types : List TypeId) :
    ((types.flatMap t.constituents).eraseDups = [] ∧ t.union types = t.intern (.primitive .never)) ∨
      (∃ one, (types.flatMap t.constituents).eraseDups = [one] ∧ t.union types = (one, t)) ∨
      (2 ≤ (types.flatMap t.constituents).eraseDups.length ∧
        t.union types = t.intern (.union (types.flatMap t.constituents).eraseDups)) := by
  cases hparts : (types.flatMap t.constituents).eraseDups with
  | nil => exact .inl ⟨rfl, by rw [union, hparts]; rfl⟩
  | cons first rest =>
    cases rest with
    | nil => exact .inr (.inl ⟨first, rfl, by rw [union, hparts]⟩)
    | cons => exact .inr (.inr ⟨by simp, by rw [union, hparts]⟩)

theorem grows_union (t : TypeTable) (types : List TypeId) : t.Grows (t.union types).2 := by
  obtain ⟨-, heq⟩ | ⟨one, -, heq⟩ | ⟨-, heq⟩ := t.union_cases types
  · exact heq ▸ grows_intern t _
  · exact heq ▸ .refl t
  · exact heq ▸ grows_intern t _

def meet (t : TypeTable) : List TypeId → TypeId × TypeTable
  | [one] => (one, t)
  | parts => t.addForm (.intersection parts)

theorem intersection_eq_meet (t : TypeTable) (types : List TypeId) :
    t.intersection types = t.meet (types.flatMap t.factors) := rfl

theorem intersection_cases (t : TypeTable) (types : List TypeId) :
    (∃ one, types.flatMap t.factors = [one] ∧ t.intersection types = (one, t)) ∨
      t.intersection types = t.addForm (.intersection (types.flatMap t.factors)) := by
  rw [intersection]
  split
  · next one hone => exact .inl ⟨one, hone, rfl⟩
  · exact .inr rfl

theorem constituents_eq_of_form {u : TypeTable} (h : u.form id = t.form id) :
    u.constituents id = t.constituents id := by
  rw [constituents, constituents, h]

theorem WellFormed.nodup_constituents (ht : t.WellFormed) (id : TypeId) :
    (t.constituents id).Nodup := by
  rw [constituents]
  split
  · next parts h => exact (ht.union_parts id parts h).1
  · exact List.nodup_nil
  · simp

theorem WellFormed.union (ht : t.WellFormed) (types : List TypeId) :
    (t.union types).2.WellFormed := by
  obtain ⟨-, heq⟩ | ⟨one, -, heq⟩ | ⟨htwo, heq⟩ := union_cases t types
  · rw [heq]
    exact ht.intern (fun _ h => by cases h)
  · rw [heq]
    exact ht
  · rw [heq]
    apply ht.intern
    intro parts h
    cases h
    exact ⟨nodup_eraseDups _, htwo⟩

theorem WellFormed.boolean (ht : t.WellFormed) : t.boolean.2.WellFormed :=
  ((ht.intern (fun _ h => by cases h)).intern (fun _ h => by cases h)).union _

def present (t : TypeTable) (ids : List TypeId) : List TypeId :=
  ids.filter fun v => ! (t.form v).isNullish

theorem unionShape_eq_of_present {a b : TypeId}
    (h : t.present (t.variants a) = t.present (t.variants b)) :
    t.unionShape a = t.unionShape b := by
  simp only [present] at h
  simp only [unionShape, h]

namespace WellFormed

variable {undef : TypeId}

theorem parts_widened (ht : t.WellFormed) (h : t.form undef = .primitive .undefined) :
    ([ty, undef].flatMap t.constituents).eraseDups =
      t.constituents ty ++ [undef].removeAll (t.constituents ty) := by
  have hc : t.constituents undef = [undef] := by rw [constituents, h]
  rw [List.flatMap_cons, List.flatMap_cons, List.flatMap_nil, hc, List.append_nil,
    List.eraseDups_append, eraseDups_of_nodup (ht.nodup_constituents ty)]
  congr 1
  apply eraseDups_of_nodup
  exact List.Nodup.sublist List.filter_sublist (by simp)

theorem two_le_parts_widened (ht : t.WellFormed) (h : t.form undef = .primitive .undefined)
    (hnull : (t.form ty).isNullish = false) (hnever : t.form ty ≠ .primitive .never) :
    2 ≤ ([ty, undef].flatMap t.constituents).eraseDups.length := by
  rw [ht.parts_widened h, constituents]
  split
  · next parts hp =>
    rw [List.length_append]
    exact Nat.le_trans (ht.union_parts ty parts hp).2 (Nat.le_add_right _ _)
  · next hp => exact absurd hp hnever
  · have hne : undef ≠ ty := by
      rintro rfl
      rw [h] at hnull
      cases hnull
    simp [List.removeAll, hne]

end WellFormed

/-- What widening makes: a union in a table that has grown, with the same parts but `undefined`
and `null`. -/
structure Widened (t u : TypeTable) (ty w : TypeId) : Prop where
  grows : t.Grows u
  wellFormed : u.WellFormed
  entry_eq : ∃ parts, u.entry w = ⟨.union parts, none⟩ ∧
    u.present parts = u.present (u.constituents ty)

theorem WellFormed.widened_union (ht : t.WellFormed) {undef : TypeId} (hlt : undef < t.size)
    (h : t.form undef = .primitive .undefined) (hty : ty < t.size)
    (hnull : (t.form ty).isNullish = false) (hnever : t.form ty ≠ .primitive .never) :
    Widened t (t.union [ty, undef]).2 ty (t.union [ty, undef]).1 := by
  have htwo := ht.two_le_parts_widened h hnull hnever
  have hgrow := grows_intern t (.union ([ty, undef].flatMap t.constituents).eraseDups)
  rw [union_of_two_le htwo]
  refine ⟨hgrow, ht.intern ?_, _, (ht.intern_sound.entry_intern _).2, ?_⟩
  · rintro parts hp
    cases hp
    exact ⟨nodup_eraseDups _, htwo⟩
  · rw [ht.parts_widened h] at hgrow ⊢
    rw [constituents_eq_of_form (ht.form_eq hgrow hty), present, List.filter_append]
    apply List.append_right_eq_self.2
    apply List.filter_eq_nil_iff.2
    intro v hv
    obtain rfl : v = undef := List.mem_singleton.1 (List.mem_filter.1 hv).1
    rw [ht.form_eq hgrow hlt, h]
    decide

theorem WellFormed.widened_optional (ht : t.WellFormed) (hty : ty < t.size)
    (hnull : (t.form ty).isNullish = false) (hnever : t.form ty ≠ .primitive .never) :
    Widened t (t.optional ty).2 ty (t.optional ty).1 := by
  have hgrow := grows_intern t (.primitive .undefined)
  have hwf := ht.intern (f := .primitive .undefined) (fun _ h => by cases h)
  obtain ⟨hlt, he⟩ := ht.intern_sound.entry_intern (.primitive .undefined)
  have hform := ht.form_eq hgrow hty
  have hw := hwf.widened_union hlt (form_of_entry he) (Nat.lt_of_lt_of_le hty hgrow.size_le)
    (hform ▸ hnull) (hform ▸ hnever)
  exact ⟨hgrow.trans hw.grows, hw.wellFormed, hw.entry_eq⟩

end PropSchema.TypeTable
