import PropSchema.Proofs.Binding.Repetition
import PropSchema.Proofs.Component.Stability

namespace PropSchema

open Relabelled Relabelling

variable {b c : Bindings}

theorem Bindings.Sound.repeats {first : Bindings} (hb : b.Sound) (hc : c.Sound)
    (hfirst : b.Grows first) (hlater : first.Grows c) :
    Bindings.Repeats first c.table.size (self (· < b.table.size)) b c where
  dom _ := Iff.rfl
  lt _ hid := Nat.lt_of_lt_of_le hid (hfirst.trans hlater).table.size_le
  moved _ _ := .inl rfl
  mirrors := (hb.embeds (hfirst.trans hlater)).mirrors
  later := hlater
  start_le := Nat.le_refl _
  wellMade := hb.wellMade
  interned f id hl := by
    obtain ⟨hlt, heq⟩ := hb.wellMade.intern_sound f id hl
    have hall := hb.confined.entry id hlt
    rw [heq] at hall
    refine ⟨hall.1, ?_⟩
    rw [show rename (self (· < b.table.size)).perm f = f from rename_id f]
    exact (hfirst.trans hlater).table.lookup_eq hl
  back g y hl := by
    obtain ⟨hlt, heq⟩ := hc.wellMade.intern_sound g y hl
    have hall := hc.confined.entry y hlt
    rw [heq] at hall
    exact .inl hall.1
  confined := by
    have hfixes : (self (· < b.table.size)).Fixes = (· < b.table.size) :=
      funext fun id => propext (and_iff_left rfl)
    rw [hfixes]
    exact hb.confined

namespace Program

variable {P : Program}

theorem props_repeated (hb : b.Sound) (hc : c.Sound) (levels : Nat) (scope : Scope) (n : Node)
    (hlater : (b.after (P.binderAt levels scope n)).2.Grows c) :
    let r := b.after (P.binderAt levels scope n)
    let r' := c.after (P.binderAt levels scope n)
    r.2.table.props r.1 = r'.2.table.props r'.1 := by
  intro r r'
  have hfirst := P.closed_grows.kept_binderAt levels scope n b
  obtain ⟨ρ, -, hs, htype⟩ := P.replays_binderAt hlater.table.size_le levels _ scope n b c
    (hb.repeats hc hfirst hlater) (.refl _)
  have hembeds : TypeTable.Embeds ρ r.2.table r'.2.table :=
    ⟨hs.dom, fun id hid => hs.lt id ((hs.dom id).2 hid), hs.mirrors⟩
  exact hembeds.props_eq htype

theorem entry_repeated (hb : b.Sound) (hc : c.Sound) (root : Path) (file : FileId)
    (hlater : (b.after (P.schemaEntry root file)).2.Grows c) :
    (c.after (P.schemaEntry root file)).1 = (b.after (P.schemaEntry root file)).1 := by
  rw [schemaEntry] at hlater ⊢
  cases hplace : P.propsPlace? file with
  | none => rw [after_schemaEntry_of_none hplace, after_schemaEntry_of_none hplace]
  | some place =>
    rw [after_schemaEntry_of_some hplace] at hlater ⊢
    rw [after_schemaEntry_of_some hplace]
    simp only [entryOf]
    rw [props_repeated hb hc bindLevels ⟨place.1, []⟩ place.2 hlater]

/-- Processing a module again gives the same entry, at once or after any other requests. -/
theorem schemaEntry_repeated (requests later : List P.Request) (root : Path) (file : FileId) :
    let r := (served requests).after (P.schemaEntry root file)
    ((servedFrom r.2 later).after (P.schemaEntry root file)).1 = r.1 := by
  intro r
  have hb : (served requests).Sound := sound_servedFrom .empty requests
  have hr : r.2.Sound := sound_servedFrom hb [(.schemaEntry root file : P.Request)]
  exact entry_repeated hb (sound_servedFrom hr later) root file (grows_servedFrom r.2 later)

end Program

end PropSchema
