import Mathlib.Data.Nat.Init
import PropSchema.Proofs.Binding.Confinement
import PropSchema.Proofs.Binding.WellMade

/-!
The same syntax bound again, in bindings that have grown since. Declarations and the types interned
for them are found as they are. Types that are made anew for the syntax itself get new numbers, and
so do the types interned over those. So the second run does what the first did, under other numbers.
-/

namespace PropSchema

open Relabelled Relabelling Bindings

namespace Relabelling

variable {α : Type} [Relabelled α] {ρ : Relabelling} {a : α}

def Fixes (ρ : Relabelling) (id : TypeId) : Prop := ρ.dom id ∧ ρ.perm id = id

theorem rename_of_fixes (h : All ρ.Fixes a) : rename ρ.perm a = a :=
  (rename_congr (all_mono (fun _ hid => hid.2) h)).trans (rename_id a)

theorem exists_upTo (ρ : Relabelling) {m n : TypeId} (hdom : ∀ id, ρ.dom id ↔ id < m)
    (hfree : ∀ id, ρ.dom id → ∀ y, m ≤ y → y < n → ρ.perm id ≠ y) (hmn : m ≤ n) :
    ∃ ρ' ≥ ρ, (∀ id, ρ'.dom id ↔ id < n) ∧ ∀ id, m ≤ id → id < n → ρ'.perm id = id := by
  induction n, hmn using Nat.le_induction with
  | base => exact ⟨ρ, le_rfl, hdom, fun id hle hlt => absurd hlt (Nat.not_lt.2 hle)⟩
  | succ n hmn ih =>
    obtain ⟨ρ₁, hρ₁, hdom₁, hperm₁⟩ := ih fun id hid y hle hlt =>
      hfree id hid y hle (Nat.lt_succ_of_lt hlt)
    have hnew : ∀ id, ρ₁.dom id → ρ₁.perm id ≠ n := by
      intro id hid
      by_cases hold : id < m
      · rw [(hρ₁ id ((hdom id).2 hold)).2]
        exact hfree id ((hdom id).2 hold) n hmn (Nat.lt_succ_self n)
      · have hlt := (hdom₁ id).1 hid
        rw [hperm₁ id (Nat.le_of_not_lt hold) hlt]
        exact Nat.ne_of_lt hlt
    obtain ⟨ρ₂, hρ₂, hdom₂, hperm₂⟩ := ρ₁.exists_next (mt (hdom₁ n).1 (Nat.lt_irrefl n)) hnew
    refine ⟨ρ₂, le_trans hρ₁ hρ₂, fun id => ?_, fun id hle hlt => ?_⟩
    · rw [hdom₂, hdom₁, Nat.lt_succ_iff_lt_or_eq]
    · obtain hlt | rfl := Nat.lt_succ_iff_lt_or_eq.1 hlt
      · rw [(hρ₂ id ((hdom₁ id).2 hlt)).2, hperm₁ id hle hlt]
      · exact hperm₂

end Relabelling

namespace Bindings

variable {first c s s' : Bindings} {start : TypeId} {ρ : Relabelling}

/-- The bindings in the middle of the first run, which ends in `first`, and in the middle of the
second one, which starts with all types below `start`. -/
structure Repeats (first : Bindings) (start : TypeId) (ρ : Relabelling) (s s' : Bindings) :
    Prop where
  dom : ∀ id, ρ.dom id ↔ id < s.table.size
  lt : ∀ id, ρ.dom id → ρ.perm id < s'.table.size
  moved : ∀ id, ρ.dom id → ρ.perm id = id ∨ start ≤ ρ.perm id
  mirrors : TypeTable.Mirrors ρ s.table s'.table
  later : first.Grows s'
  start_le : start ≤ s'.table.size
  wellMade : s.table.WellMade
  interned : ∀ f id, s.table.interned.lookup f = some id →
    All ρ.dom f ∧ s'.table.interned.lookup (rename ρ.perm f) = some (ρ.perm id)
  /-- A form over types that are new in the second run was interned in the first one too. -/
  back : ∀ g y, s'.table.interned.lookup g = some y → All (· < start) g ∨
    ∃ f id, All ρ.dom f ∧ g = rename ρ.perm f ∧ s.table.interned.lookup f = some id
  confined : s.Confined ρ.Fixes

namespace Repeats

theorem exists_advance (h : Repeats first start ρ s s') (hstart : first.table.size ≤ start)
    (hsc : s.Grows c) (hc : c.Grows first) :
    ∃ ρ' ≥ ρ, (∀ id, ρ'.dom id ↔ id < c.table.size) ∧
      ∀ id, s.table.size ≤ id → id < c.table.size → ρ'.perm id = id := by
  apply ρ.exists_upTo h.dom _ hsc.table.size_le
  rintro id hid y hle hlt rfl
  obtain hfix | hmoved := h.moved id hid
  · rw [hfix] at hle
    exact absurd ((h.dom id).1 hid) (Nat.not_lt.2 hle)
  · have hlt' := Nat.lt_of_lt_of_le hlt hc.table.size_le
    exact absurd hlt' (Nat.not_lt.2 (Nat.le_trans hstart hmoved))

section Advance

variable (h : Repeats first start ρ s s') {ρ' : Relabelling} (hρ : ρ ≤ ρ')
  (hdom : ∀ id, ρ'.dom id ↔ id < c.table.size)
  (hperm : ∀ id, s.table.size ≤ id → id < c.table.size → ρ'.perm id = id)

include h hρ

theorem confined_advance : s.Confined ρ'.Fixes := by
  have hfixes : ∀ id, ρ'.Fixes id → ρ.dom id → ρ.Fixes id := by
    intro id hid hold
    exact ⟨hold, (hρ id hold).2.symm.trans hid.2⟩
  have hfixes' : ∀ id, ρ.Fixes id → ρ'.Fixes id := by
    intro id hid
    exact ⟨(hρ id hid.1).1, (hρ id hid.1).2.trans hid.2⟩
  refine ⟨fun id hid => ?_, fun f id hl hall => ?_, fun key id hl => ?_⟩
  · by_cases hold : id < s.table.size
    · exact all_mono hfixes' (h.confined.entry id (hfixes id hid ((h.dom id).2 hold)))
    · rw [TypeTable.entry_of_size_le (Nat.le_of_not_lt hold)]
      exact ⟨trivial, all_none⟩
  · have hall' := all_and hall (h.interned f id hl).1
    exact hfixes' id (h.confined.interned f id hl
      (all_mono (fun id hid => hfixes id hid.1 hid.2) hall'))
  · exact hfixes' id (h.confined.declared key id hl)

include hdom hperm

theorem dom_advance {id : TypeId} (hid : ρ'.dom id) :
    ρ.dom id ∧ ρ'.perm id = ρ.perm id ∨ s.table.size ≤ id ∧ ρ'.Fixes id := by
  by_cases hold : id < s.table.size
  · exact .inl ⟨(h.dom id).2 hold, (hρ id ((h.dom id).2 hold)).2⟩
  · have hle := Nat.le_of_not_lt hold
    exact .inr ⟨hle, hid, hperm id hle ((hdom id).1 hid)⟩

variable (hsc : s.Grows c) (hcs' : c.Grows s') (hconf : c.Confined ρ'.Fixes)

include hsc hcs' hconf

theorem mirrors_advance : TypeTable.Mirrors ρ' c.table s'.table := by
  intro id hid
  obtain ⟨hold, heq⟩ | ⟨-, hfix⟩ := h.dom_advance hρ hdom hperm hid
  · rw [hsc.table.entry_eq ((h.dom id).1 hold), heq]
    exact (h.mirrors id hold).mono hρ
  · have hall := hconf.entry id hfix
    rw [hfix.2, hcs'.table.entry_eq ((hdom id).1 hid)]
    exact ⟨all_mono (fun _ hid => hid.1) hall, (rename_of_fixes hall).symm⟩

theorem interned_advance (hmade : c.table.WellMade) {f : Form} {id : TypeId}
    (hl : c.table.interned.lookup f = some id) :
    All ρ'.dom f ∧ s'.table.interned.lookup (rename ρ'.perm f) = some (ρ'.perm id) := by
  obtain ⟨hlt, heq⟩ := hmade.intern_sound f id hl
  obtain ⟨hold, hid⟩ | ⟨-, hfix⟩ := h.dom_advance hρ hdom hperm ((hdom id).2 hlt)
  · have hfind : s.find (.form f) = some id := hsc.find_old hl ((h.dom id).1 hold)
    obtain ⟨hall, hl'⟩ := h.interned f id hfind
    rw [hid, rename_congr (all_mono (fun id hid => (hρ id hid).2) hall)]
    exact ⟨all_mono (fun id hid => (hρ id hid).1) hall, hl'⟩
  · -- A type that only the first run interns refers to types that keep their numbers.
    have hall := hconf.entry id hfix
    rw [heq] at hall
    rw [rename_of_fixes hall.1, hfix.2]
    exact ⟨all_mono (fun _ hid => hid.1) hall.1, hcs'.table.lookup_eq hl⟩

end Advance

theorem advance (h : Repeats first start ρ s s') (hstart : first.table.size ≤ start)
    (hsc : s.Grows c) (hc : c.Grows first) (hmade : c.table.WellMade)
    (hconfined : ∀ p : TypeId → Prop, (∀ id, ρ.Fixes id → p id) → s.Confined p →
      NewWithin p s.table.size c → c.Confined p) :
    ∃ ρ' ≥ ρ, Repeats first start ρ' c s' ∧
      ∀ id, s.table.size ≤ id → id < c.table.size → ρ'.Fixes id := by
  have hcs' := hc.trans h.later
  obtain ⟨ρ', hρ, hdom, hperm⟩ := h.exists_advance hstart hsc hc
  have hnew : ∀ id, s.table.size ≤ id → id < c.table.size → ρ'.Fixes id :=
    fun id hle hlt => ⟨(hdom id).2 hlt, hperm id hle hlt⟩
  have hconf := hconfined ρ'.Fixes
    (fun id hid => ⟨(hρ id hid.1).1, (hρ id hid.1).2.trans hid.2⟩) (h.confined_advance hρ) hnew
  refine ⟨ρ', hρ, ⟨hdom, fun id hid => ?_, fun id hid => ?_,
    h.mirrors_advance hρ hdom hperm hsc hcs' hconf, h.later, h.start_le, hmade,
    fun f id hl => h.interned_advance hρ hdom hperm hsc hcs' hconf hmade hl, fun g y hl => ?_,
    hconf⟩, hnew⟩
  · obtain ⟨hold, heq⟩ | ⟨-, hfix⟩ := h.dom_advance hρ hdom hperm hid
    · rw [heq]
      exact h.lt id hold
    · rw [hfix.2]
      exact Nat.lt_of_lt_of_le ((hdom id).1 hid) hcs'.table.size_le
  · obtain ⟨hold, heq⟩ | ⟨-, hfix⟩ := h.dom_advance hρ hdom hperm hid
    · rw [heq]
      exact h.moved id hold
    · exact .inl hfix.2
  · obtain hall | ⟨f, id, hall, heq, hf⟩ := h.back g y hl
    · exact .inl hall
    · refine .inr ⟨f, id, all_mono (fun id hid => (hρ id hid).1) hall, ?_, hsc.table.lookup_eq hf⟩
      rw [heq]
      exact rename_congr (all_mono (fun id hid => (hρ id hid).2.symm) hall)

theorem exists_both (h : Repeats first start ρ s s') (hlt : s.table.size < start) :
    ∃ ρ' ≥ ρ, (∀ id, ρ'.dom id ↔ ρ.dom id ∨ id = s.table.size) ∧
      ρ'.perm s.table.size = s'.table.size ∧ ∀ id, ρ'.Fixes id ↔ ρ.Fixes id := by
  obtain ⟨ρ', hρ, hdom, hperm⟩ := ρ.exists_next (mt (h.dom _).1 (Nat.lt_irrefl s.table.size))
    fun id hid => Nat.ne_of_lt (h.lt id hid)
  refine ⟨ρ', hρ, hdom, hperm, fun id => ⟨fun hid => ?_, fun hid => ?_⟩⟩
  · obtain hold | rfl := (hdom id).1 hid.1
    · exact ⟨hold, (hρ id hold).2.symm.trans hid.2⟩
    · have heq : s'.table.size = s.table.size := hperm.symm.trans hid.2
      exact absurd (Nat.lt_of_lt_of_le hlt h.start_le) (Nat.not_lt.2 (Nat.le_of_eq heq))
  · exact ⟨(hρ id hid.1).1, (hρ id hid.1).2.trans hid.2⟩

theorem mirrors_both (h : Repeats first start ρ s s') {ρ' : Relabelling} (hρ : ρ ≤ ρ')
    (hdom : ∀ id, ρ'.dom id ↔ ρ.dom id ∨ id = s.table.size)
    (hperm : ρ'.perm s.table.size = s'.table.size) {f f' : Form} (hf : ρ.Takes f f') :
    TypeTable.Mirrors ρ' (s.table.addForm f).2 (s'.table.addForm f').2 := by
  intro id hid
  obtain hold | rfl := (hdom id).1 hid
  · rw [(hρ id hold).2, TypeTable.entry_addForm_of_lt f ((h.dom id).1 hold),
      TypeTable.entry_addForm_of_lt f' (h.lt id hold)]
    exact (h.mirrors id hold).mono hρ
  · obtain ⟨hall, heq⟩ := hf.mono hρ
    rw [hperm, TypeTable.entry_addForm_self, TypeTable.entry_addForm_self, heq]
    exact Takes.entry ⟨hall, rfl⟩ takes_none

theorem lookup_both (h : Repeats first start ρ s s') {ρ' : Relabelling} (hρ : ρ ≤ ρ') {f : Form}
    {id : TypeId} (hl : s.table.interned.lookup f = some id) :
    All ρ'.dom f ∧ rename ρ'.perm f = rename ρ.perm f ∧ ρ'.perm id = ρ.perm id := by
  obtain ⟨hall, -⟩ := h.interned f id hl
  have hid : ρ.dom id := (h.dom id).2 (h.wellMade.intern_sound f id hl).1
  exact ⟨all_mono (fun id hid => (hρ id hid).1) hall,
    rename_congr (all_mono (fun id hid => (hρ id hid).2) hall), (hρ id hid).2⟩

section Both

variable (h : Repeats first start ρ s s') {f f' : Form} (hproper : f.Proper) (hf : ρ.Takes f f')
  {ρ' : Relabelling} (hρ : ρ ≤ ρ') (hdom : ∀ id, ρ'.dom id ↔ ρ.dom id ∨ id = s.table.size)
  (hperm : ρ'.perm s.table.size = s'.table.size) (hfixes : ∀ id, ρ'.Fixes id ↔ ρ.Fixes id)

include h hproper hf hρ hdom hperm hfixes

theorem addForm : Repeats first start ρ' { s with table := (s.table.addForm f).2 }
    { s' with table := (s'.table.addForm f').2 } := by
  have hsize := (TypeTable.grows_addForm s'.table f').size_le
  have heq : ρ'.Fixes = ρ.Fixes := funext fun id => propext (hfixes id)
  have hmoved : ¬ ρ.Fixes s.table.size := fun hid => Nat.lt_irrefl _ ((h.dom _).1 hid.1)
  refine ⟨fun id => ?_, fun id hid => ?_, fun id hid => ?_, h.mirrors_both hρ hdom hperm hf,
    h.later.trans (grows_addForm s' f'), Nat.le_trans h.start_le hsize,
    h.wellMade.addForm fun _ => hproper, fun g id hl => ?_, fun g y hl => ?_, ?_⟩
  · rw [hdom, h.dom, TypeTable.size_addForm, Nat.lt_succ_iff_lt_or_eq]
  · obtain hold | rfl := (hdom id).1 hid
    · rw [(hρ id hold).2]
      exact Nat.lt_of_lt_of_le (h.lt id hold) hsize
    · rw [hperm, TypeTable.size_addForm]
      exact Nat.lt_succ_self _
  · obtain hold | rfl := (hdom id).1 hid
    · rw [(hρ id hold).2]
      exact h.moved id hold
    · rw [hperm]
      exact .inr h.start_le
  · obtain ⟨hall, hrename, hid⟩ := h.lookup_both hρ hl
    rw [hrename, hid]
    exact ⟨hall, (h.interned g id hl).2⟩
  · obtain hall | ⟨g', id, -, heq, hg⟩ := h.back g y hl
    · exact .inl hall
    · obtain ⟨hall, hrename, -⟩ := h.lookup_both hρ hg
      exact .inr ⟨g', id, hall, heq.trans hrename.symm, hg⟩
  · rw [heq]
    exact h.confined.addForm fun hid => absurd hid hmoved

theorem intern (hnone : s.table.interned.lookup f = none)
    (hnone' : s'.table.interned.lookup f' = none) (hall : ¬ All ρ.Fixes f) :
    Repeats first start ρ' { s with table := (s.table.intern f).2 }
      { s' with table := (s'.table.intern f').2 } := by
  have hadd := h.addForm hproper hf hρ hdom hperm hfixes
  have hmade := h.wellMade.intern hproper
  have hgrows := h.later.trans (grows_intern s' f')
  have hmoved : ¬ ρ.Fixes s.table.size := fun hid => Nat.lt_irrefl _ ((h.dom _).1 hid.1)
  have hconf : Confined ρ.Fixes { s with table := (s.table.intern f).2 } :=
    h.confined.intern fun _ => iff_of_false hmoved hall
  have heq : ρ'.Fixes = ρ.Fixes := funext fun id => propext (hfixes id)
  have hf' := hf.mono hρ
  rw [TypeTable.intern_of_lookup_none hnone] at hmade hconf ⊢
  rw [TypeTable.intern_of_lookup_none hnone'] at hgrows ⊢
  refine ⟨hadd.dom, hadd.lt, hadd.moved, hadd.mirrors, hgrows, hadd.start_le, hmade,
    fun g id hl => ?_, fun g y hl => ?_, heq ▸ hconf⟩
  · by_cases hgf : g = f
    · subst hgf
      rw [List.lookup_cons_self] at hl
      obtain rfl := Option.some.inj hl
      rw [← hf'.2, hperm]
      exact ⟨hf'.1, List.lookup_cons_self⟩
    · rw [List.lookup_cons, beq_false_of_ne hgf] at hl
      obtain ⟨hdom', hl'⟩ := hadd.interned g id hl
      refine ⟨hdom', ?_⟩
      rw [List.lookup_cons, hf'.2, beq_false_of_ne fun heq => hgf (rename_injective ρ'.perm heq)]
      exact hl'
  · by_cases hgf : g = f'
    · exact .inr ⟨f, s.table.size, hf'.1, hgf.trans hf'.2, List.lookup_cons_self⟩
    · rw [List.lookup_cons, beq_false_of_ne hgf] at hl
      obtain hall | ⟨g', id, hall, heq, hg⟩ := hadd.back g y hl
      · exact .inl hall
      · refine .inr ⟨g', id, hall, heq, ?_⟩
        rw [List.lookup_cons, beq_false_of_ne]
        · exact hg
        · rintro rfl
          exact absurd (hnone.symm.trans hg) (by simp)

end Both

end Repeats

end Bindings

namespace Binder

variable {α β : Type} [Relabelled α] [Relabelled β] {first : Bindings} {start : TypeId}
  {ρ : Relabelling}

def Replays (first : Bindings) (start : TypeId) (ρ : Relabelling) (x x' : BindM α) : Prop :=
  ∀ s s', Repeats first start ρ s s' → (s.after x).2.Grows first →
    ∃ ρ' ≥ ρ, Repeats first start ρ' (s.after x).2 (s'.after x').2 ∧
      ρ'.Takes (s.after x).1 (s'.after x').1

theorem replays_pure {a a' : α} (h : ρ.Takes a a') :
    Replays first start ρ (pure a : BindM α) (pure a') :=
  fun _ _ hs _ => ⟨ρ, le_rfl, hs, h⟩

theorem Replays.bind {x x' : BindM α} {f f' : α → BindM β} (h : Replays first start ρ x x')
    (hf : ∀ ρ' ≥ ρ, ∀ a a', ρ'.Takes a a' → Replays first start ρ' (f a) (f' a'))
    (hgrows : ∀ a, Kept Grows (f a)) : Replays first start ρ (x >>= f) (x' >>= f') := by
  intro s s' hs hfirst
  obtain ⟨ρ₁, hρ₁, hs₁, ha⟩ := h s s' hs ((hgrows _ _).trans hfirst)
  obtain ⟨ρ₂, hρ₂, hs₂, hb⟩ := hf ρ₁ hρ₁ _ _ ha _ _ hs₁ hfirst
  exact ⟨ρ₂, le_trans hρ₁ hρ₂, hs₂, hb⟩

theorem replays_reading {γ : Type} (read read' : TypeTable → γ) {next next' : γ → BindM α}
    (h : ∀ s s', Repeats first start ρ s s' →
      Replays first start ρ (next (read s.table)) (next' (read' s'.table))) :
    Replays first start ρ (do next (← (return read (← get).table)))
      (do next' (← (return read' (← get).table))) :=
  fun s s' hs hfirst => h s s' hs s s' hs hfirst

variable (hstart : first.table.size ≤ start)

include hstart

theorem replays_addForm {f f' : Form} (hproper : f.Proper) (hf : ρ.Takes f f') :
    Replays first start ρ (onTable (·.addForm f)) (onTable (·.addForm f')) := by
  intro s s' hs hfirst
  rw [after_onTable] at hfirst
  have hlt : s.table.size < start := by
    have hle := hfirst.table.size_le
    rw [TypeTable.size_addForm] at hle
    exact Nat.le_trans hle hstart
  obtain ⟨ρ', hρ, hdom, hperm, hfixes⟩ := hs.exists_both hlt
  exact ⟨ρ', hρ, hs.addForm hproper hf hρ hdom hperm hfixes, (hdom _).2 (.inr rfl), hperm.symm⟩

theorem replays_intern {f f' : Form} (hproper : f.Proper) (hf : ρ.Takes f f') :
    Replays first start ρ (onTable (·.intern f)) (onTable (·.intern f')) := by
  intro s s' hs hfirst
  rw [after_onTable] at hfirst
  rw [after_onTable, after_onTable]
  cases hl : s.table.interned.lookup f with
  | some id =>
    have hl' := (hs.interned f id hl).2
    rw [← hf.2] at hl'
    rw [TypeTable.intern_of_lookup hl, TypeTable.intern_of_lookup hl']
    exact ⟨ρ, le_rfl, hs, (hs.dom id).2 (hs.wellMade.intern_sound f id hl).1, rfl⟩
  | none =>
    have hlookup := hfirst.table.lookup_eq (TypeTable.lookup_intern s.table f)
    have hsize := hfirst.table.size_le
    have hlt : s.table.size < (s.table.intern f).2.size := by
      rw [TypeTable.intern_of_lookup_none hl]
      exact (s.table.size_addForm f).symm ▸ Nat.lt_succ_self _
    have hfst : (s.table.intern f).1 = s.table.size := by rw [TypeTable.intern_of_lookup_none hl]
    by_cases hfixed : All ρ.Fixes f
    · -- The first run interns the form too, so the second one finds it.
      obtain rfl : f' = f := hf.2.trans (rename_of_fixes hfixed)
      have hl' := hs.later.table.lookup_eq hlookup
      rw [hfst] at hl'
      obtain ⟨ρ', hρ, hs', hnew⟩ := hs.advance hstart (grows_intern s f') hfirst
        (hs.wellMade.intern hproper) fun p hp hconf hwithin => hconf.intern fun _ =>
          iff_of_true (hwithin _ (Nat.le_refl _) hlt) (all_mono hp hfixed)
      rw [TypeTable.intern_of_lookup hl', hfst]
      have hfixes := hnew _ (Nat.le_refl _) hlt
      exact ⟨ρ', hρ, hs', hfixes.1, hfixes.2.symm⟩
    · have hnone' : s'.table.interned.lookup f' = none := by
        cases hl' : s'.table.interned.lookup f' with
        | none => rfl
        | some y =>
          exfalso
          obtain hall | ⟨g, id, -, heq, hg⟩ := hs.back f' y hl'
          · rw [hf.2] at hall
            apply hfixed
            refine all_mono (fun id hid => ⟨hid.2, ?_⟩) (all_and (all_of_rename hall) hf.1)
            exact (hs.moved id hid.2).resolve_right (Nat.not_le.2 hid.1)
          · obtain rfl := rename_injective ρ.perm (heq.symm.trans hf.2)
            rw [hl] at hg
            cases hg
      have hlt' : s.table.size < start :=
        Nat.lt_of_lt_of_le hlt (Nat.le_trans hsize hstart)
      obtain ⟨ρ', hρ, hdom, hperm, hfixes⟩ := hs.exists_both hlt'
      have hs' := hs.intern hproper hf hρ hdom hperm hfixes hl hnone' hfixed
      refine ⟨ρ', hρ, hs', ?_⟩
      rw [hfst, TypeTable.intern_of_lookup_none hnone']
      exact ⟨(hdom _).2 (.inr rfl), hperm.symm⟩

theorem replays_union {types types' : List TypeId} (htypes : ρ.Takes types types') :
    Replays first start ρ (onTable (·.union types)) (onTable (·.union types')) := by
  intro s s' hs hfirst
  have hparts := (htypes.flatMap fun _ _ => hs.mirrors.constituents_takes).eraseDups
  have hnodup := TypeTable.nodup_eraseDups (types.flatMap s.table.constituents)
  rw [after_onTable, TypeTable.union_eq_unite] at hfirst
  rw [after_onTable, after_onTable, TypeTable.union_eq_unite, TypeTable.union_eq_unite]
  generalize (types.flatMap s.table.constituents).eraseDups = parts at hparts hnodup hfirst ⊢
  generalize (types'.flatMap s'.table.constituents).eraseDups = parts' at hparts ⊢
  cases hparts.forall₂ with
  | nil => exact replays_intern hstart (f := .primitive .never) trivial ⟨trivial, rfl⟩ s s' hs hfirst
  | cons hone hrest =>
    cases hrest with
    | nil => exact ⟨ρ, le_rfl, hs, hone⟩
    | cons =>
      apply replays_intern hstart (f := .union _) ⟨hnodup, by simp⟩ _ s s' hs hfirst
      exact ⟨hparts.1, congrArg Form.union hparts.2⟩

theorem replays_intersection {types types' : List TypeId} (htypes : ρ.Takes types types') :
    Replays first start ρ (onTable (·.intersection types)) (onTable (·.intersection types')) := by
  intro s s' hs hfirst
  have hparts := htypes.flatMap fun _ _ => hs.mirrors.factors_takes
  rw [after_onTable, TypeTable.intersection_eq_meet] at hfirst
  rw [after_onTable, after_onTable, TypeTable.intersection_eq_meet, TypeTable.intersection_eq_meet]
  generalize types.flatMap s.table.factors = parts at hparts hfirst ⊢
  generalize types'.flatMap s'.table.factors = parts' at hparts ⊢
  have htakes : ρ.Takes (Form.intersection parts) (.intersection parts') :=
    ⟨hparts.1, congrArg Form.intersection hparts.2⟩
  have hproper : (Form.intersection parts).Proper := trivial
  have hadd := replays_addForm hstart hproper htakes s s' hs
  cases hparts.forall₂ with
  | nil => exact hadd hfirst
  | cons hone hrest =>
    cases hrest with
    | nil => exact ⟨ρ, le_rfl, hs, hone⟩
    | cons => exact hadd hfirst

section Run

variable {bind : Binder} (hgrows : ∀ scope n, Kept Grows (bind scope n))
  (hbind : ∀ ρ scope n, Replays first start ρ (bind scope n) (bind scope n))

include hgrows hbind

theorem replays_run {d d' : Dialogue α} (h : Dialogue.Alike ρ d d') :
    Replays first start ρ (bind.run d) (bind.run d') := by
  have hrest : ∀ {γ : Type} (next : γ → Dialogue α) (a : γ), Kept Grows (bind.run (next a)) :=
    fun next a => kept_grows hgrows (next a)
  induction h with
  | done h => exact replays_pure h
  | type _ ih => exact (hbind _ _ _).bind ih (hrest _)
  | @add _ _ _ plain _ _ _ hf _ ih =>
    exact (replays_addForm hstart (Form.proper_of_isPlain plain) hf).bind ih (hrest _)
  | @intern _ _ _ plain _ _ _ hf _ ih =>
    exact (replays_intern hstart (Form.proper_of_isPlain plain) hf).bind ih (hrest _)
  | union htypes _ ih => exact (replays_union hstart htypes).bind ih (hrest _)
  | intersection htypes _ ih => exact (replays_intersection hstart htypes).bind ih (hrest _)
  | members htype _ ih =>
    apply replays_reading (fun t => t.members _) (fun t => t.members _)
    intro s s' hs
    exact ih _ le_rfl _ _ (hs.mirrors.members_takes htype)
  | keyNames hkeys _ ih =>
    apply replays_reading (fun t => t.keyNames _) (fun t => t.keyNames _)
    intro s s' hs
    rw [← hs.mirrors.keyNames_eq hkeys]
    exact ih _ le_rfl _
  | display htype _ ih =>
    apply replays_reading (fun t => t.display _) (fun t => t.display _)
    intro s s' hs
    rw [← hs.mirrors.display_eq _ _ htype]
    exact ih _ le_rfl _

end Run

end Binder

namespace Program

open Binder

variable {first : Bindings} {start : TypeId} (hstart : first.table.size ≤ start)

include hstart

/-- In the second run every declaration of the first one is bound, as it was bound there. -/
theorem replays_declarationType (P : Program) (levels : Nat) {d : Declaration} (hd : P.Has d)
    (ρ : Relabelling) :
    Replays first start ρ ((P.binderAt levels).declarationType d)
      ((P.binderAt levels).declarationType d) := by
  intro s s' hs hfirst
  have hgrows := P.closed_grows.kept_binderAt levels
  cases hl : s.declared.lookup d.key with
  | some id =>
    rw [after_declarationType_of_some hl] at hfirst ⊢
    rw [after_declarationType_of_some (hs.later.declared (hfirst.declared hl))]
    have hfixes := hs.confined.declared _ id hl
    exact ⟨ρ, le_rfl, hs, hfixes.1, hfixes.2.symm⟩
  | none =>
    obtain ⟨hfst, hdeclared, hlt⟩ := after_declarationType_new hgrows hl
    obtain ⟨ρ', hρ, hs', hnew⟩ := hs.advance hstart
      (kept_grows_declarationType hgrows d s) hfirst
      ((P.closed_builds.kept_declarationType (P.closed_builds.kept_binderAt levels) hd s).wellMade
        hs.wellMade)
      fun p _ hconf hwithin => (((P.yielding_confined p s.table.size).declarationType hgrows
        ((P.yielding_confined p s.table.size).binderAt levels) hd) s ⟨hconf, Nat.le_refl _⟩
        hwithin).1.1
    rw [after_declarationType_of_some (hs.later.declared (hfirst.declared hdeclared)), hfst]
    have hfixes := hnew _ (Nat.le_refl _) hlt
    exact ⟨ρ', hρ, hs', hfixes.1, hfixes.2.symm⟩

theorem replays_binderAt (P : Program) (levels : Nat) (ρ : Relabelling) (scope : Scope) (n : Node) :
    Replays first start ρ (P.binderAt levels scope n) (P.binderAt levels scope n) := by
  induction levels generalizing ρ scope n with
  | zero => exact replays_intern hstart (f := .primitive .any) trivial ⟨trivial, rfl⟩
  | succ levels ih =>
    intro s s' hs hfirst
    have hgrows := P.closed_grows.kept_binderAt levels
    have hmeaning := replays_run hstart hgrows ih (Dialogue.alike_meaning P ρ scope n) s s' hs
    have hcases := after_nodeType_cases P (P.binderAt levels) scope n s
    have hcases' := after_nodeType_cases P (P.binderAt levels) scope n s'
    rw [binderAt] at hfirst ⊢
    generalize s.after ((P.binderAt levels).run (.meaning P scope n)) = r at hmeaning hcases
    generalize s'.after ((P.binderAt levels).run (.meaning P scope n)) = r' at hmeaning hcases'
    obtain ⟨id, hm, hrun⟩ | ⟨d, hm, hd, hrun⟩ := hcases
    · rw [hrun] at hfirst ⊢
      obtain ⟨ρ', hρ, hs', hid, heq⟩ := hmeaning hfirst
      rw [hm] at hid heq
      obtain ⟨id', hm', hrun'⟩ | ⟨d', hm', -, -⟩ := hcases'
      · rw [hrun']
        rw [hm'] at heq
        exact ⟨ρ', hρ, hs', hid, Meaning.type.inj heq⟩
      · rw [hm'] at heq
        cases heq
    · rw [hrun] at hfirst ⊢
      obtain ⟨ρ₁, hρ₁, hs₁, -, heq⟩ :=
        hmeaning ((kept_grows_declarationType hgrows d r.2).trans hfirst)
      rw [hm] at heq
      obtain ⟨id', hm', -⟩ | ⟨d', hm', -, hrun'⟩ := hcases'
      · rw [hm'] at heq
        cases heq
      · rw [hm'] at heq
        obtain rfl := Meaning.declaration.inj heq
        rw [hrun']
        obtain ⟨ρ₂, hρ₂, hs₂, hid⟩ :=
          P.replays_declarationType hstart levels hd ρ₁ _ _ hs₁ hfirst
        exact ⟨ρ₂, le_trans hρ₁ hρ₂, hs₂, hid⟩

end Program

end PropSchema
