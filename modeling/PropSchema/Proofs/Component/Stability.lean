import PropSchema.Proofs.Binding.Inheritance
import PropSchema.Proofs.Component.Arena
import PropSchema.Proofs.Schema.Embedding

namespace PropSchema

open Relabelled Relabelling

theorem Bindings.Sound.embeds_table {b : Bindings} {u : TypeTable} (hb : b.Sound)
    (h : b.table.Grows u) : TypeTable.Embeds (self (· < b.table.size)) b.table u where
  dom _ := Iff.rfl
  lt _ hid := Nat.lt_of_lt_of_le hid h.size_le
  mirrors id hid := by
    change Takes _ _ (u.entry id)
    rw [h.entry_eq hid]
    exact takes_self (hb.confined.entry id hid)

theorem Bindings.Sound.embeds {b c : Bindings} (hb : b.Sound) (h : b.Grows c) :
    TypeTable.Embeds (self (· < b.table.size)) b.table c.table :=
  hb.embeds_table h.table

namespace Program

variable {P : Program}

theorem grows_servedFrom (b : Bindings) (requests : List P.Request) :
    b.Grows (servedFrom b requests) :=
  servedFrom_induction (fun c call h => h.trans (P.closed_grows.kept_perform call c)) (.refl b)
    requests

/-- Later requests change nothing of what is read of a type that is bound, nor which type a bound
declaration has. -/
theorem bound_types_stable (requests later : List P.Request) :
    let b := served requests
    let c := served (requests ++ later)
    (∀ id < b.table.size,
      c.table.form id = b.table.form id ∧ c.table.alias? id = b.table.alias? id ∧
      c.table.members id = b.table.members id ∧ c.table.display id = b.table.display id ∧
      c.table.props id = b.table.props id) ∧
    ∀ (d : Declaration) slot, b.declared.lookup d.key = some slot →
      (b.after (P.typeOfDeclaration d)).1 = slot ∧ (c.after (P.typeOfDeclaration d)).1 = slot := by
  intro b c
  have hb : b.Sound := sound_servedFrom .empty requests
  have hgrows : b.Grows c := by
    have h := grows_servedFrom (served requests) later
    rwa [← served_append] at h
  have hembeds := hb.embeds hgrows
  have hmirrors := hembeds.mirrors
  refine ⟨fun id hid => ?_, fun d slot hslot => ⟨?_, ?_⟩⟩
  · have hx : (self (· < b.table.size)).Takes id id := takes_self hid
    exact ⟨(hmirrors.form_takes hx).eq_of_self, (hmirrors.alias?_takes hx).eq_of_self,
      (hmirrors.members_takes hx).eq_of_self, (hmirrors.display_eq id id hx).symm,
      (hembeds.props_eq hx).symm⟩
  · exact congrArg Prod.fst (Binder.after_declarationType_of_some hslot)
  · exact congrArg Prod.fst (Binder.after_declarationType_of_some (hgrows.declared hslot))

def itemRequest : List ownedProgram.Request := [.declaredType itemDeclaration has_itemDeclaration]

def groupRequest : List ownedProgram.Request :=
  [.declaredType groupDeclaration has_groupDeclaration]

theorem item_and_group_stay :
    let b := served itemRequest
    let c := served (itemRequest ++ groupRequest)
    (∀ id < 3, id < b.table.size ∧ c.table.members id = b.table.members id) ∧
      b.declared.lookup groupDeclaration.key = some 2 ∧
      (c.after (ownedProgram.typeOfDeclaration groupDeclaration)).1 = 2 := by
  have hstable := bound_types_stable itemRequest groupRequest
  have hsize : 3 ≤ (served itemRequest).table.size := by decide +kernel
  have hgroup : (served itemRequest).declared.lookup groupDeclaration.key = some 2 := by
    decide +kernel
  refine ⟨fun id hid => ?_, hgroup, (hstable.2 _ 2 hgroup).2⟩
  have hlt := Nat.lt_of_lt_of_le hid hsize
  exact ⟨hlt, (hstable.1 id hlt).2.2.1⟩

end Program

end PropSchema
