import PropSchema.Proofs.Binding.Sites
import PropSchema.Proofs.Binding.States
import PropSchema.Proofs.Component.Requests

namespace PropSchema

open Relabelled

namespace TypeTable

variable {t u : TypeTable} {id : TypeId} {m : Member}

theorem Grows.allowsUndefined (h : t.Grows u) (hid : t.AllowsUndefined id) :
    u.AllowsUndefined id := by
  obtain hid | ⟨parts, hparts, part, hmem, hpart⟩ := hid
  · exact .inl (h.lookup_eq hid)
  · have hlt : id < t.size := lt_size_of_form_ne (by rw [hparts]; exact Form.noConfusion)
    exact .inr ⟨parts, by rw [h.entry_eq hlt, hparts], part, hmem, h.lookup_eq hpart⟩

theorem Grows.formFits (h : t.Grows u) {f : Form} (hf : t.FormFits f) : u.FormFits f := by
  cases f with
  | object type => exact fun m hm => ⟨(hf m hm).1, fun ho => h.allowsUndefined ((hf m hm).2 ho)⟩
  | _ => trivial

end TypeTable

namespace Bindings

variable {b c : Bindings}

/-- Bindings as they are between requests: well made, complete, and with all that they refer to. -/
structure Sound (b : Bindings) : Prop where
  wellMade : b.table.WellMade
  confined : b.Confined (· < b.table.size)
  closed : ∀ id < b.table.size, ¬ b.table.IsOpen id
  fits : b.FitsIn b

namespace Sound

theorem empty : Sound {} where
  wellMade := .empty
  confined := Orderly.empty.confined
  closed id hid := absurd hid (Nat.not_lt_zero id)
  fits id := by
    rw [TypeTable.entry_of_size_le (Nat.zero_le id)]
    trivial

theorem orderly (h : b.Sound) : b.Orderly := ⟨h.wellMade, h.confined⟩

theorem perform {P : Program} (h : b.Sound) (call : P.Call) :
    (b.after (P.perform call)).2.Sound := by
  have hbuilds := P.closed_builds.kept_perform call b
  have hyields := fun size =>
    (P.yielding_confined (· < size) 0).perform call (fun _ _ _ => trivial) b
  have hfits := fun (c : Bindings) hc =>
    (P.yielding_fitsIn (c := c) hc).perform call (fun _ _ _ => trivial) b
  generalize (b.after (P.perform call)).2 = c at hbuilds hyields hfits ⊢
  have hmade := hbuilds.wellMade h.wellMade
  refine ⟨hmade, ?_, fun id hid => ?_, ?_⟩
  · have hc := h.orderly.confined_of_le hbuilds.grows.table.size_le
    exact (hyields c.table.size ⟨hc, Nat.zero_le _⟩ fun _ _ hlt => hlt).1.1
  · by_cases hold : id < b.table.size
    · rw [TypeTable.IsOpen, hbuilds.grows.table.entry_eq hold]
      exact h.closed id hold
    · exact hbuilds.closed id (Nat.le_of_not_lt hold) hid
  · apply (hfits c hmade.intern_sound ?_ (Grows.refl c).settles).1
    exact fun id => hbuilds.grows.table.formFits (h.fits id)

end Sound

end Bindings

namespace Program

theorem sound_servedFrom {P : Program} {b : Bindings} (hb : b.Sound) (requests : List P.Request) :
    (servedFrom b requests).Sound :=
  servedFrom_induction (fun _ call h => h.perform call) hb requests

/-- Between requests the counter is at zero; entries, aliases, interned types and declarations refer
to types of the table; what is interned has the form it is interned under, so that types are the same
when their forms are; unions have at least two parts, none of them twice; the sites of members fit
their declared types; and no slot was forgotten. -/
theorem arena_invariant {P : Program} (requests : List P.Request) :
    let b := served requests
    (∀ fuel, bindLevels ≤ fuel → countedServed fuel requests = (b, 0)) ∧
    (∀ id < b.table.size, All (· < b.table.size) (b.table.entry id)) ∧
    (∀ f id, b.table.interned.lookup f = some id →
      All (· < b.table.size) f ∧ id < b.table.size ∧ b.table.entry id = ⟨f, none⟩) ∧
    (∀ key id, b.declared.lookup key = some id → id < b.table.size) ∧
    (∀ f g id id', b.table.interned.lookup f = some id → b.table.interned.lookup g = some id' →
      (id = id' ↔ f = g)) ∧
    (∀ id parts, (b.table.entry id).form = .union parts → 2 ≤ parts.length ∧ parts.Nodup) ∧
    (∀ id object, (b.table.entry id).form = .object object → ∀ m ∈ object.members,
      (m.optional = false → m.site = m.declared) ∧
        (m.optional = true → b.table.AllowsUndefined m.site)) ∧
    (∀ id < b.table.size, (b.table.entry id).form = .pending → (b.table.alias? id).isSome) := by
  intro b
  have hb : b.Sound := sound_servedFrom .empty requests
  have hintern := hb.wellMade.intern_sound
  refine ⟨fun fuel hfuel => countedServed_eq hfuel requests, hb.confined.entry, fun f id hl => ?_,
    hb.confined.declared, fun f g id id' hf hg => ⟨?_, ?_⟩, fun id parts hform => ?_,
    fun id object hform => ?_, fun id hid hform => ?_⟩
  · obtain ⟨hlt, heq⟩ := hintern f id hl
    have hall := hb.confined.entry id hlt
    rw [heq] at hall
    exact ⟨hall.1, hlt, heq⟩
  · rintro rfl
    have heq := (hintern f id hf).2.symm.trans (hintern g id hg).2
    exact congrArg Entry.form heq
  · rintro rfl
    exact Option.some.inj (hf.symm.trans hg)
  · have hproper := hb.wellMade.proper id (by rw [hform]; exact Form.noConfusion)
    rw [hform] at hproper
    exact ⟨hproper.2, hproper.1⟩
  · have hfits := hb.fits id
    rw [hform] at hfits
    exact hfits
  · cases halias : b.table.alias? id with
    | some a => rfl
    | none =>
      exfalso
      apply hb.closed id hid
      rw [TypeTable.IsOpen, ← hform, ← halias]
      rfl

end Program

end PropSchema
