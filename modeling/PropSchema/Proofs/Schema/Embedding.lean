import Mathlib.Data.Finset.Card
import PropSchema.Proofs.Ty.Embedding
import PropSchema.Schema.Extraction

namespace PropSchema

open Relabelled

namespace Relabelled

instance : Relabelled UnionShape where
  rename σ
    | .single type => .single (σ type)
    | .mixed variants => .mixed (rename σ variants)
    | shape => shape
  All p
    | .single type => p type
    | .mixed variants => All p variants
    | _ => True
  rename_congr {σ τ shape} h := by
    cases shape with
    | single type => exact congrArg UnionShape.single h
    | mixed variants => exact congrArg UnionShape.mixed (rename_congr h)
    | _ => rfl
  rename_rename σ τ shape := by cases shape <;> simp only [rename_rename, Function.comp]
  rename_id shape := by cases shape <;> simp only [rename_id, id]
  all_mono {p q shape} h hshape := by
    cases shape with
    | single type => exact h _ hshape
    | mixed variants => exact all_mono h hshape
    | _ => trivial
  all_of h shape := by
    cases shape with
    | single type => exact h type
    | mixed variants => exact all_of h variants
    | _ => trivial
  all_and {p q shape} hp hq := by
    cases shape with
    | single type => exact ⟨hp, hq⟩
    | mixed variants => exact all_and hp hq
    | _ => trivial
  all_of_rename {p σ shape} h := by
    cases shape with
    | single type => exact h
    | mixed variants => exact all_of_rename h
    | _ => trivial

end Relabelled

namespace TypeTable

variable {ρ : Relabelling} {t u : TypeTable} {x y : TypeId}
  {expand expand' : TypeId → Option (List PropDefinition)} {name : String} {required : Bool}

namespace Mirrors

theorem optionText_eq (h : Mirrors ρ t u) (x y : TypeId) (hx : ρ.Takes x y) :
    t.optionText x = u.optionText y := by
  rw [optionText, optionText, (h.form_takes hx).2, h.display_eq x y hx]
  cases t.form x <;> rfl

theorem variantRank_eq (h : Mirrors ρ t u) (x y : TypeId) (hx : ρ.Takes x y) :
    t.variantRank x = u.variantRank y := by
  rw [variantRank, variantRank, (h.form_takes hx).2]
  cases t.form x <;> rfl

theorem unionShape_takes (h : Mirrors ρ t u) (hx : ρ.Takes x y) :
    ρ.Takes (t.unionShape x) (u.unionShape y) := by
  have hform : ∀ p : Form → Bool, (∀ f, p (rename ρ.perm f) = p f) →
      ∀ x y, ρ.Takes x y → p (t.form x) = p (u.form y) := by
    intro p hp x y hx
    rw [(h.form_takes hx).2, hp]
  have hliteral := hform Form.isLiteral fun f => by cases f <;> rfl
  have hboolean := hform Form.isBooleanLiteral fun f => by cases f <;> rfl
  have hpresent := (h.variants_takes hx).filter
    (hform (fun f => ! f.isNullish) fun f => by cases f <;> rfl)
  simp only [unionShape, List.partition_eq_filter_filter]
  generalize (t.variants x).filter _ = present at hpresent ⊢
  generalize (u.variants y).filter _ = present' at hpresent ⊢
  have hmixed : ρ.Takes
      (UnionShape.mixed (present.mergeSort fun a b => decide (t.variantRank a ≤ t.variantRank b)))
      (UnionShape.mixed
        (present'.mergeSort fun a b => decide (u.variantRank a ≤ u.variantRank b))) := by
    have hsorted := hpresent.mergeSort
      (r := fun a b => decide (t.variantRank a ≤ t.variantRank b))
      (s := fun a b => decide (u.variantRank a ≤ u.variantRank b)) fun a b c d hab hcd => by
        rw [h.variantRank_eq a b hab, h.variantRank_eq c d hcd]
    exact ⟨hsorted.1, congrArg UnionShape.mixed hsorted.2⟩
  have hliterals := hpresent.filter hliteral
  have hothers : ρ.Takes (present.filter (not ∘ fun v => (t.form v).isLiteral))
      (present'.filter (not ∘ fun v => (u.form v).isLiteral)) :=
    hpresent.filter fun a b hab => congrArg not (hliteral a b hab)
  generalize present.filter (fun v => (t.form v).isLiteral) = literals at hliterals ⊢
  generalize present'.filter (fun v => (u.form v).isLiteral) = literals' at hliterals ⊢
  generalize present.filter (not ∘ fun v => (t.form v).isLiteral) = others at hothers ⊢
  generalize present'.filter (not ∘ fun v => (u.form v).isLiteral) = others' at hothers ⊢
  rw [← hliterals.map_eq h.optionText_eq, ← hliterals.all_eq hboolean, ← hliterals.isEmpty_eq,
    ← hliterals.length_eq, ← hothers.isEmpty_eq]
  split
  · split
    · exact ⟨trivial, rfl⟩
    · exact ⟨trivial, rfl⟩
  · cases hliterals.forall₂ with
    | nil =>
      cases hothers.forall₂ with
      | nil => exact hmixed
      | cons hone hrest =>
        cases hrest with
        | nil => exact ⟨hone.1, congrArg UnionShape.single hone.2⟩
        | cons => exact hmixed
    | cons => exact hmixed

theorem propByForm_eq (h : Mirrors ρ t u) (hexpand : ∀ x y, ρ.Takes x y → expand x = expand' y)
    {nested nested' : TypeId → Option PropDefinition}
    (hnested : ∀ x y, ρ.Takes x y → nested x = nested' y) (hx : ρ.Takes x y) :
    t.propByForm expand nested name required x = u.propByForm expand' nested' name required y := by
  have hdeclared := h.declared_takes hx
  obtain ⟨hshape, heq⟩ := h.unionShape_takes hx
  simp only [propByForm, ← h.kind_eq hdeclared, heq, ← h.optionText_eq _ _ hdeclared,
    ← h.display_eq _ _ hdeclared, ← hexpand x y hx]
  cases t.kind (t.declared x) with
  | union =>
    generalize t.unionShape x = shape at hshape ⊢
    cases shape with
    | single inner => exact hnested inner _ ⟨hshape, rfl⟩
    | mixed variants =>
      cases variants with
      | nil => rfl
      | cons v rest =>
        apply congrArg (Option.map _)
        exact Relabelling.Takes.mapM_eq ⟨hshape, rfl⟩ hnested
    | _ => rfl
  | _ => rfl

theorem propAt_eq (h : Mirrors ρ t u) (hexpand : ∀ x y, ρ.Takes x y → expand x = expand' y)
    (nesting : Nat) (x y : TypeId) (hx : ρ.Takes x y) :
    t.propAt expand name required nesting x = u.propAt expand' name required nesting y := by
  induction nesting generalizing x y with
  | zero => rfl
  | succ nesting ih =>
    rw [propAt, propAt, h.display_eq _ _ (h.declared_takes hx), h.propByForm_eq hexpand ih hx]

end Mirrors

theorem mapM_mono {α β : Type} {f g : α → Option β} (hfg : ∀ a b, f a = some b → g a = some b)
    {l : List α} {result : List β} (h : l.mapM f = some result) : l.mapM g = some result := by
  induction l generalizing result with
  | nil => exact h
  | cons a l ih =>
    simp only [List.mapM_cons, Option.bind_eq_bind, Option.bind_eq_some_iff] at h ⊢
    obtain ⟨b, hb, rest, hrest, heq⟩ := h
    exact ⟨b, hfg a b hb, rest, ih hrest, heq⟩

theorem propByForm_mono {nested nested' : TypeId → Option PropDefinition}
    (h : ∀ id d, nested id = some d → nested' id = some d) {d : PropDefinition}
    (hd : t.propByForm expand nested name required x = some d) :
    t.propByForm expand nested' name required x = some d := by
  simp only [propByForm] at hd ⊢
  generalize t.kind (t.declared x) = kind at hd ⊢
  generalize t.unionShape x = shape at hd ⊢
  cases kind with
  | union =>
    cases shape with
    | single inner => exact h inner d hd
    | mixed variants =>
      cases variants with
      | nil => exact hd
      | cons v rest =>
        obtain ⟨children, hchildren, heq⟩ := Option.map_eq_some_iff.1 hd
        exact Option.map_eq_some_iff.2 ⟨children, mapM_mono h hchildren, heq⟩
    | _ => exact hd
  | _ => exact hd

theorem propAt_mono (nesting : Nat) (id : TypeId) (d : PropDefinition)
    (h : t.propAt expand name required nesting id = some d) :
    t.propAt expand name required (nesting + 1) id = some d := by
  induction nesting generalizing id d with
  | zero => cases h
  | succ nesting ih =>
    rw [propAt] at h ⊢
    by_cases hatomic : Label.isAtomic (t.display (t.declared id)) = true
    · rw [if_pos hatomic] at h ⊢
      exact h
    · rw [if_neg hatomic] at h ⊢
      exact propByForm_mono ih h

/-- Partial results for a finite number of types that only become more, and stay once they stay for
one step, stay from the number of the types on: each earlier step defines one more of them. -/
theorem settled_of_mono {β : Type} {f : Nat → TypeId → Option β} {size : Nat}
    (hmono : ∀ n id b, f n id = some b → f (n + 1) id = some b)
    (hstep : ∀ n, (∀ id < size, f n id = f (n + 1) id) →
      ∀ id < size, f (n + 1) id = f (n + 2) id)
    {n : Nat} (hn : size ≤ n) : ∀ id < size, f n id = f (n + 1) id := by
  let defined (n : Nat) : Finset TypeId := (Finset.range size).filter fun id => (f n id).isSome
  have hgain : ∀ n, (∀ id < size, f n id = f (n + 1) id) ∨
      (defined n).card < (defined (n + 1)).card := by
    intro n
    by_cases hsame : ∀ id < size, f n id = f (n + 1) id
    · exact .inl hsame
    right
    obtain ⟨id, hid, hne⟩ : ∃ id < size, f n id ≠ f (n + 1) id := by
      simpa only [not_forall, exists_prop] using hsame
    have hnone : f n id = none := by
      cases hfn : f n id with
      | none => rfl
      | some b => exact absurd (hfn.trans (hmono n id b hfn).symm) hne
    apply Finset.card_lt_card
    apply Finset.ssubset_iff_of_subset _ |>.2
    · refine ⟨id, ?_, ?_⟩
      · have hsome : (f (n + 1) id).isSome := by
          rw [Option.isSome_iff_ne_none]
          exact fun h => hne (hnone.trans h.symm)
        exact Finset.mem_filter.2 ⟨Finset.mem_range.2 hid, hsome⟩
      · intro hmem
        have hsome := (Finset.mem_filter.1 hmem).2
        rw [hnone] at hsome
        exact absurd hsome Bool.false_ne_true
    · intro a ha
      obtain ⟨hrange, hsome⟩ := Finset.mem_filter.1 ha
      obtain ⟨b, hb⟩ := Option.isSome_iff_exists.1 hsome
      exact Finset.mem_filter.2 ⟨hrange, Option.isSome_iff_exists.2 ⟨b, hmono n a b hb⟩⟩
  have hcount : ∀ n, (∀ id < size, f n id = f (n + 1) id) ∨ n < (defined (n + 1)).card := by
    intro n
    induction n with
    | zero =>
      obtain hsame | hlt := hgain 0
      · exact .inl hsame
      · exact .inr (Nat.zero_lt_of_lt hlt)
    | succ n ih =>
      obtain hsame | hlt := hgain (n + 1)
      · exact .inl hsame
      obtain hsame | hn := ih
      · exact .inl (hstep n hsame)
      · exact .inr (Nat.lt_of_le_of_lt hn hlt)
  obtain hsame | hlt := hcount n
  · exact hsame
  · have hle : (defined (n + 1)).card ≤ size :=
      (Finset.card_filter_le _ _).trans_eq (Finset.card_range size)
    omega

theorem propAt_settled (h : Mirrors ⟨Equiv.refl TypeId, (· < t.size)⟩ t t) {nesting : Nat}
    (hn : t.size ≤ nesting) (hx : x < t.size) :
    t.propAt expand name required nesting x = t.propAt expand name required t.size x := by
  have hstep : ∀ n, (∀ id < t.size,
      t.propAt expand name required n id = t.propAt expand name required (n + 1) id) →
      ∀ id < t.size,
        t.propAt expand name required (n + 1) id = t.propAt expand name required (n + 2) id := by
    intro n hsame id hid
    have hform : t.propByForm expand (t.propAt expand name required n) name required id =
        t.propByForm expand (t.propAt expand name required (n + 1)) name required id := by
      apply h.propByForm_eq _ _ ⟨hid, rfl⟩
      · intro x y hx
        exact congrArg expand hx.2.symm
      · intro x y hx
        obtain rfl : y = x := hx.2
        exact hsame y hx.1
    rw [propAt, propAt, hform]
  induction nesting, hn using Nat.le_induction with
  | base => rfl
  | succ n hn ih => rw [← ih, settled_of_mono propAt_mono hstep hn x hx]

structure Embeds (ρ : Relabelling) (t u : TypeTable) : Prop where
  dom : ∀ id, ρ.dom id ↔ id < t.size
  lt : ∀ id < t.size, ρ.perm id < u.size
  mirrors : Mirrors ρ t u

namespace Embeds

theorem size_le (h : Embeds ρ t u) : t.size ≤ u.size := by
  have hmaps : ∀ id ∈ Finset.range t.size, ρ.perm id ∈ Finset.range u.size :=
    fun id hid => Finset.mem_range.2 (h.lt id (Finset.mem_range.1 hid))
  simpa using Finset.card_le_card_of_injOn ρ.perm hmaps ρ.perm.injective.injOn

theorem self (h : Embeds ρ t u) : Mirrors ⟨Equiv.refl TypeId, (· < t.size)⟩ t t := by
  intro id hid
  refine ⟨all_mono (fun id hid => (h.dom id).1 hid) (h.mirrors id ((h.dom id).2 hid)).1, ?_⟩
  exact (rename_id _).symm

theorem propsAt_eq (h : Embeds ρ t u) (room : Nat) (trail : Trail) (x y : TypeId)
    (hx : ρ.Takes x y) : t.propsAt room trail x = u.propsAt room trail y := by
  induction room generalizing trail x y with
  | zero => rfl
  | succ room ih =>
    have hdeclared : ρ.Takes ((t.members x).filter (·.declaration.isSome))
        ((u.members y).filter (·.declaration.isSome)) := by
      apply (h.mirrors.members_takes hx).filter
      rintro m _ ⟨-, rfl⟩
      rfl
    rw [propsAt, propsAt, h.mirrors.display_eq x y hx]
    congr 1
    apply hdeclared.mapM_eq
    rintro m _ ⟨hm, rfl⟩
    have hsite : m.site < t.size := (h.dom m.site).1 hm.2
    -- The larger table allows more nesting, of which the smaller one has no use.
    rw [unionLevels, propAt_settled h.self (Nat.le_succ _) hsite,
      ← propAt_settled h.self (Nat.le_succ_of_le h.size_le) hsite]
    exact h.mirrors.propAt_eq (fun x y hx => ih _ x y hx) u.unionLevels m.site _ ⟨hm.2, rfl⟩

theorem props_eq (h : Embeds ρ t u) (hx : ρ.Takes x y) : t.props x = u.props y :=
  h.propsAt_eq _ _ x y hx

end Embeds

end TypeTable

end PropSchema
