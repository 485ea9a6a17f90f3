import PropSchema.Proofs.Binding.Confinement
import PropSchema.Proofs.Binding.WellMade

namespace PropSchema

open Relabelled Bindings

def Question.Within (p : TypeId → Prop) : Question → Prop
  | .add f _ | .intern f _ => All p f
  | .union types | .intersection types => All p types
  | _ => True

theorem Question.Within.mono {p q : TypeId → Prop} {question : Question}
    (h : question.Within p) (hpq : ∀ id, p id → q id) : question.Within q := by
  cases question with
  | add | intern | union | intersection => exact all_mono hpq h
  | _ => trivial

/-- The bindings that can occur while types are bound. There are none at first; then a question
about types of the table is answered, the type of a declaration is reserved or added, or an open
slot is filled. -/
inductive Program.Occurs (P : Program) : Bindings → Prop
  | start : P.Occurs {}
  | answer {b : Bindings} (levels : Nat) (q : Question) : P.Occurs b → q.Within (· < b.table.size) →
    P.Occurs (b.after ((P.binderAt levels).answer q)).2
  | declare {b : Bindings} {d : Declaration} {f : Form} : P.Occurs b →
    f = .pending ∨ f = d.leafForm → P.Occurs (b.declare d f)
  | fillInterface {b : Bindings} {slot : TypeId} {object : ObjectType} : P.Occurs b →
    slot < b.table.size → b.table.IsOpen slot → All (· < b.table.size) object →
    P.Occurs (b.fillInterface slot object)
  | fillAlias {b : Bindings} {slot body : TypeId} (name : String) : P.Occurs b →
    slot < b.table.size → b.table.IsOpen slot → body < b.table.size →
    P.Occurs (b.fillAlias slot name body)

theorem Binder.confines_answer {bind : Binder} {p : TypeId → Prop} {start : TypeId}
    (hbind : ∀ scope n, Confines p start (bind scope n) p) {q : Question} (hq : q.Within p) :
    Confines p start (bind.answer q) fun _ => True := by
  intro b hb hend
  refine ⟨?_, trivial⟩
  cases q with
  | type scope n => exact (hbind scope n b hb hend).1
  | add f plain => exact (confines_addForm hq b hb hend).1
  | intern f plain => exact (confines_intern hq b hb hend).1
  | union types => exact (confines_union hq b hb hend).1
  | intersection types => exact (confines_intersection hq b hb hend).1
  | members | keyNames | display => exact hb

namespace Bindings

structure Orderly (b : Bindings) : Prop where
  wellMade : b.table.WellMade
  confined : b.Confined (· < b.table.size)

namespace Orderly

variable {P : Program} {b : Bindings} {slot : TypeId}

theorem empty : Orderly {} where
  wellMade := .empty
  confined := by
    refine ⟨fun id hid => absurd hid (Nat.not_lt_zero id), fun f id hl => ?_, fun key id hl => ?_⟩
    · cases hl
    · cases hl

theorem coherent (h : b.Orderly) : b.table.Coherent := ⟨h.wellMade.intern_sound, h.confined.entry⟩

theorem confined_of_le (h : b.Orderly) {size : Nat} (hle : b.table.size ≤ size) :
    b.Confined (· < size) where
  entry id _ := by
    by_cases hid : id < b.table.size
    · exact all_mono (fun _ hlt => Nat.lt_of_lt_of_le hlt hle) (h.confined.entry id hid)
    · rw [TypeTable.entry_of_size_le (Nat.le_of_not_lt hid)]
      exact ⟨trivial, all_none⟩
  interned f id hl _ := Nat.lt_of_lt_of_le (h.wellMade.intern_sound f id hl).1 hle
  declared key id hl := Nat.lt_of_lt_of_le (h.confined.declared key id hl) hle

theorem answer (h : b.Orderly) (levels : Nat) {q : Question} (hq : q.Within (· < b.table.size)) :
    (b.after ((P.binderAt levels).answer q)).2.Orderly := by
  have hbuilds := P.closed_builds.kept_answer levels q b
  have hle := hbuilds.grows.table.size_le
  have hbind := fun size scope n =>
    (P.yielding_confined (· < size) 0).binderAt levels scope n trivial
  have hconfines := Binder.confines_answer (hbind _)
    (hq.mono fun _ hlt => Nat.lt_of_lt_of_le hlt hle) b ⟨h.confined_of_le hle, Nat.zero_le _⟩
  exact ⟨hbuilds.wellMade h.wellMade, (hconfines fun _ _ hlt => hlt).1.1⟩

theorem declare (h : b.Orderly) (d : Declaration) {f : Form} (hf : f = .pending ∨ f = d.leafForm) :
    (b.declare d f).Orderly := by
  have hle : b.table.size ≤ (b.declare d f).table.size := by simp
  refine ⟨h.wellMade.addForm fun hne => ?_, (h.confined_of_le hle).declare d ?_ (by simp)⟩
  · obtain rfl | rfl := hf
    · exact absurd rfl hne
    · exact d.proper_leafForm
  · obtain rfl | rfl := hf
    · trivial
    · exact d.all_leafForm _

section Fill

variable (h : b.Orderly) (hslot : slot < b.table.size) (hopen : b.table.IsOpen slot)

include h hslot hopen

theorem fillInterface {object : ObjectType} (hobject : All (· < b.table.size) object) :
    (b.fillInterface slot object).Orderly := by
  refine ⟨h.wellMade.fill hopen (by simp) rfl (fun id => TypeTable.entry_setForm_of_ne _) ?_, ?_⟩
  · rw [entry_fillInterface_self hslot hopen]
    exact fun _ => trivial
  · rw [size_fillInterface]
    exact h.confined.fillInterface slot hobject

theorem fillAlias {body : TypeId} (hbody : body < b.table.size) (name : String) :
    (b.fillAlias slot name body).Orderly := by
  refine ⟨h.wellMade.fill hopen (by simp) ?_ (fun id hne => entry_fillAlias_of_ne hne _ _) ?_, ?_⟩
  · rw [Bindings.fillAlias]
    split <;> rfl
  · by_cases hself : body = slot
    · rw [hself, entry_fillAlias_self hslot hopen]
      exact fun _ => trivial
    · rw [entry_fillAlias_target hslot hself]
      exact h.wellMade.proper_formAt _ _
  · rw [size_fillAlias]
    exact h.confined.fillAlias slot name hbody

end Fill

end Orderly

end Bindings

theorem Program.Occurs.orderly {P : Program} {b : Bindings} (h : P.Occurs b) : b.Orderly := by
  induction h with
  | start => exact .empty
  | answer levels q _ hq ih => exact ih.answer levels hq
  | declare _ hf ih => exact ih.declare _ hf
  | fillInterface _ hslot hopen hobject ih => exact ih.fillInterface hslot hopen hobject
  | fillAlias name _ hslot hopen hbody ih => exact ih.fillAlias hslot hopen hbody name

end PropSchema
