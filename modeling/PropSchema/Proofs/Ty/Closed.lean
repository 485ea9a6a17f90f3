import PropSchema.Proofs.Ty.Embedding
import PropSchema.Proofs.Ty.UnionLaws

namespace PropSchema

open Relabelled

namespace Relabelling

variable {α : Type} [Relabelled α] {p : TypeId → Prop} {a b : α}

def self (p : TypeId → Prop) : Relabelling := ⟨Equiv.refl TypeId, p⟩

theorem takes_self (h : All p a) : (self p).Takes a a := ⟨h, (rename_id a).symm⟩

theorem Takes.eq_of_self (h : (self p).Takes a b) : b = a := h.2.trans (rename_id a)

end Relabelling

open Relabelling

namespace TypeTable

variable {t u w : TypeTable} {id : TypeId} {f : Form} {types : List TypeId}

/-- Types refer to types of the table, and what is interned has the form it is interned under. -/
structure Coherent (t : TypeTable) : Prop where
  intern_sound : t.InternSound
  closed : ∀ id < t.size, All (· < t.size) (t.entry id)

namespace Coherent

theorem empty : Coherent {} where
  intern_sound f id h := by simp at h
  closed id hid := absurd hid (Nat.not_lt_zero id)

theorem mirrors (h : t.Coherent) (hgrows : t.Grows u) : Mirrors (self (· < t.size)) t u := by
  intro id hid
  change (self _).Takes (t.entry id) (u.entry id)
  rw [hgrows.entry_eq hid]
  exact takes_self (h.closed id hid)

section Reading

variable (h : t.Coherent) (hgrows : t.Grows u) (hid : id < t.size)

include h hgrows hid

theorem form_eq : u.form id = t.form id :=
  ((h.mirrors hgrows).form_takes (takes_self hid)).eq_of_self

theorem members_eq : u.members id = t.members id :=
  ((h.mirrors hgrows).members_takes (takes_self hid)).eq_of_self

end Reading

theorem all_members (h : t.Coherent) (hid : id < t.size) : All (· < t.size) (t.members id) :=
  ((h.mirrors (.refl t)).members_takes (takes_self hid)).1

theorem all_constituents (h : t.Coherent) (htypes : t.Holds types) :
    All (· < t.size) (types.flatMap t.constituents).eraseDups := by
  intro part hpart
  obtain ⟨x, hx, hpart⟩ := List.mem_flatMap.1 (List.mem_eraseDups.1 hpart)
  exact ((h.mirrors (.refl t)).constituents_takes (takes_self (htypes x hx))).1 part hpart

theorem of_added (h : t.Coherent) (hgrows : t.Grows u) (hsound : u.InternSound)
    (hentry : ∀ id, u.entry id = t.entry id ∨ u.entry id = ⟨f, none⟩)
    (hf : All (· < t.size) f) : u.Coherent where
  intern_sound := hsound
  closed id _ := by
    apply all_mono fun _ hlt => Nat.lt_of_lt_of_le hlt hgrows.size_le
    cases hentry id with
    | inr hnew => exact hnew ▸ ⟨hf, all_none⟩
    | inl hold =>
      rw [hold]
      by_cases hid : id < t.size
      · exact h.closed id hid
      · rw [entry_of_size_le (Nat.le_of_not_lt hid)]
        exact ⟨trivial, all_none⟩

theorem addForm (h : t.Coherent) (hf : All (· < t.size) f) : (t.addForm f).2.Coherent :=
  h.of_added (grows_addForm t f) (h.intern_sound.addForm f)
    (fun id => (entry_addForm_cases t f id).imp_right And.right) hf

theorem intern (h : t.Coherent) (hf : All (· < t.size) f) : (t.intern f).2.Coherent := by
  refine h.of_added (grows_intern t f) (h.intern_sound.intern f) (fun id => ?_) hf
  cases hlookup : t.interned.lookup f with
  | some old => exact .inl (by rw [intern_of_lookup hlookup])
  | none =>
    rw [intern_of_lookup_none hlookup]
    exact (entry_addForm_cases t f id).imp_right And.right

theorem union (h : t.Coherent) (htypes : t.Holds types) : (t.union types).2.Coherent := by
  obtain ⟨-, heq⟩ | ⟨one, -, heq⟩ | ⟨-, heq⟩ := t.union_cases types
  · rw [heq]
    exact h.intern (f := .primitive .never) trivial
  · rw [heq]
    exact h
  · rw [heq]
    exact h.intern (f := .union _) (h.all_constituents htypes)

theorem lt_union (h : t.Coherent) (htypes : t.Holds types) :
    (t.union types).1 < (t.union types).2.size := by
  obtain ⟨-, heq⟩ | ⟨one, hone, heq⟩ | ⟨-, heq⟩ := t.union_cases types
  · rw [heq]
    exact (h.intern_sound.entry_intern _).1
  · rw [heq]
    exact h.all_constituents htypes one (hone ▸ List.mem_singleton_self one)
  · rw [heq]
    exact (h.intern_sound.entry_intern _).1

theorem union_again (h : t.Coherent) (htypes : t.Holds types) (hgrows : (t.union types).2.Grows w) :
    w.union types = ((t.union types).1, w) :=
  union_eq_of_grows (flatMap_constituents_congr fun x hx =>
    h.form_eq ((grows_union t types).trans hgrows) (htypes x hx)) hgrows

theorem holds_widened (h : t.Coherent) (hid : id < t.size) :
    (t.primitive .undefined).2.Holds [id, (t.primitive .undefined).1] := by
  intro x hx
  obtain rfl | hx := List.mem_cons.1 hx
  · exact Nat.lt_of_lt_of_le hid (grows_intern t _).size_le
  · exact List.mem_singleton.1 hx ▸ (h.intern_sound.entry_intern _).1

theorem optional (h : t.Coherent) (hid : id < t.size) : (t.optional id).2.Coherent :=
  (h.intern (f := .primitive .undefined) trivial).union (h.holds_widened hid)

theorem lt_optional (h : t.Coherent) (hid : id < t.size) :
    (t.optional id).1 < (t.optional id).2.size :=
  (h.intern (f := .primitive .undefined) trivial).lt_union (h.holds_widened hid)

theorem optional_again (h : t.Coherent) (hid : id < t.size) (hgrows : (t.optional id).2.Grows w) :
    w.optional id = ((t.optional id).1, w) := by
  have hagain :=
    (h.intern (f := .primitive .undefined) trivial).union_again (h.holds_widened hid) hgrows
  have hgrows' := (grows_union (t.primitive .undefined).2 _).trans hgrows
  have hundefined : w.primitive .undefined = ((t.primitive .undefined).1, w) :=
    intern_of_lookup (hgrows'.lookup_eq (lookup_intern t _))
  rw [TypeTable.optional, hundefined]
  exact hagain

end Coherent

end TypeTable

end PropSchema
