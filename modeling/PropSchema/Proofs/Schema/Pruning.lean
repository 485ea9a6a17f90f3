import PropSchema.Proofs.Schema.SharedTrail

namespace PropSchema

inductive PropDefinition.Pruned : PropDefinition → PropDefinition → Prop
  | childless {p} : p.children = none → Pruned p p
  | cut {name required options children} :
    Pruned ⟨name, "object", required, options, some children⟩
      ⟨name, "object", required, options, some []⟩
  | kept {name type required options children children'} :
    List.Forall₂ Pruned children children' →
      Pruned ⟨name, type, required, options, some children⟩
        ⟨name, type, required, options, some children'⟩

namespace TypeTable

open PropDefinition (Pruned)

variable {t : TypeTable} {v w : Trail} {name : String} {optional required : Bool} {ty : TypeId}
  {expand expand' : TypeId → Option (List PropDefinition)}

def PrunedAll (props props' : List PropDefinition) : Prop :=
  props' = [] ∨ List.Forall₂ Pruned props props'

theorem mapM_pruned {α : Type} {f g : α → Option PropDefinition}
    (h : ∀ a p, f a = some p → ∃ q, g a = some q ∧ Pruned p q) {l : List α}
    {props : List PropDefinition} (hl : l.mapM f = some props) :
    ∃ props', l.mapM g = some props' ∧ List.Forall₂ Pruned props props' := by
  simp only [mapM_eq_some_iff] at hl ⊢
  induction hl with
  | nil => exact ⟨[], .nil, .nil⟩
  | cons ha _ ih =>
    obtain ⟨q, hq, hpruned⟩ := h _ _ ha
    obtain ⟨rest, hrest, hall⟩ := ih
    exact ⟨q :: rest, .cons hq hrest, .cons hpruned hall⟩

theorem pruned_propByForm {nested nested' : TypeId → Option PropDefinition} {p : PropDefinition}
    (hexpand : ∀ ty props, expand ty = some props →
      ∃ props', expand' ty = some props' ∧ PrunedAll props props')
    (hnested : ∀ ty p, nested ty = some p → ∃ q, nested' ty = some q ∧ Pruned p q)
    (h : t.propByForm expand nested name required ty = some p) :
    ∃ q, t.propByForm expand' nested' name required ty = some q ∧ Pruned p q := by
  simp only [propByForm] at h ⊢
  generalize t.kind (t.declared ty) = kind at h ⊢
  generalize t.unionShape ty = shape at h ⊢
  cases kind with
  | union =>
    cases shape with
    | single inner => exact hnested inner p h
    | mixed variants =>
      cases variants with
      | nil => exact ⟨p, h, .childless (by cases h; rfl)⟩
      | cons first rest =>
        obtain ⟨children, hchildren, rfl⟩ := Option.map_eq_some_iff.1 h
        obtain ⟨children', hchildren', hpruned⟩ := mapM_pruned hnested hchildren
        exact ⟨_, Option.map_eq_some_iff.2 ⟨children', hchildren', rfl⟩, .kept hpruned⟩
    | _ => exact ⟨p, h, .childless (by cases h; rfl)⟩
  | object =>
    obtain ⟨children, hchildren, rfl⟩ := Option.map_eq_some_iff.1 h
    obtain ⟨children', hchildren', hpruned⟩ := hexpand ty children hchildren
    refine ⟨_, Option.map_eq_some_iff.2 ⟨children', hchildren', rfl⟩, ?_⟩
    obtain rfl | hpruned := hpruned
    · exact .cut
    · exact .kept hpruned
  | _ => exact ⟨p, h, .childless (by cases h; rfl)⟩

theorem pruned_propAt {nesting : Nat} {p : PropDefinition}
    (hexpand : ∀ ty props, expand ty = some props →
      ∃ props', expand' ty = some props' ∧ PrunedAll props props')
    (h : t.propAt expand name required nesting ty = some p) :
    ∃ q, t.propAt expand' name required nesting ty = some q ∧ Pruned p q := by
  induction nesting generalizing ty p with
  | zero => cases h
  | succ nesting ih =>
    rw [propAt] at h ⊢
    split at h
    · next hatomic => exact ⟨p, by rw [if_pos hatomic, h], .childless (by cases h; rfl)⟩
    · next hatomic =>
      rw [if_neg hatomic]
      exact pruned_propByForm hexpand (fun _ _ => ih) h

theorem pruned_propsWithin (hmem : ∀ shown ∈ v, shown ∈ w) (hlen : v.length ≤ w.length)
    {props : List PropDefinition} (h : t.propsWithin v ty = some props) :
    ∃ props', t.propsWithin w ty = some props' ∧ PrunedAll props props' := by
  -- By the room that is left on the shorter trail.
  induction hroom : Trail.limit - v.length using Nat.strongRecOn generalizing v w ty props with
  | ind room ih =>
    rw [propsWithin_eq] at h ⊢
    split
    · exact ⟨[], rfl, .inl rfl⟩
    · next hcut =>
      rw [not_or, Nat.not_le] at hcut
      have hopen : ¬ (t.display ty ∈ v ∨ Trail.limit ≤ v.length) := by
        rintro (hv | hv)
        · exact hcut.1 (hmem _ hv)
        · omega
      rw [if_neg hopen] at h
      have hexpand : ∀ ty' props, t.propsWithin (t.display ty :: v) ty' = some props →
          ∃ props', t.propsWithin (t.display ty :: w) ty' = some props' ∧
            PrunedAll props props' := by
        intro ty' props hprops
        refine ih _ ?_ ?_ ?_ hprops rfl
        · rw [List.length_cons]
          omega
        · exact List.cons_subset_cons _ hmem
        · exact Nat.succ_le_succ hlen
      obtain ⟨props', hprops', hpruned⟩ := mapM_pruned (fun _ _ => pruned_propAt hexpand) h
      exact ⟨props', hprops', .inr hpruned⟩

theorem longer_trail_prunes (t : TypeTable) {v w : Trail} (hmem : ∀ shown ∈ v, shown ∈ w)
    (hlen : v.length ≤ w.length) (ty : TypeId) :
    (∀ name optional, Acc t.Follows (.define v name optional ty) →
      ∃ p q, t.propWithin v name optional ty = some p ∧ t.propWithin w name optional ty = some q ∧
        Pruned p q) ∧
    (Acc t.Follows (.expand v ty) →
      ∃ props props', t.propsWithin v ty = some props ∧ t.propsWithin w ty = some props' ∧
        (props' = [] ∨ List.Forall₂ Pruned props props')) := by
  constructor
  · intro name optional h
    obtain ⟨p, hp⟩ := exists_propWithin h
    obtain ⟨q, hq, hpruned⟩ := pruned_propAt (fun _ _ => pruned_propsWithin hmem hlen) hp
    exact ⟨p, q, hp, hq, hpruned⟩
  · intro h
    obtain ⟨props, hprops⟩ := exists_propsWithin h
    obtain ⟨props', hprops', hpruned⟩ := pruned_propsWithin hmem hlen hprops
    exact ⟨props, props', hprops, hprops', hpruned⟩

theorem longer_trail_prunes_segment :
    (∀ shown ∈ ([] : Trail), shown ∈ ["Point"]) ∧
      Acc segment.Follows (.expand [] 2) ∧
      ∃ props props', segment.propsWithin [] 2 = some props ∧
        segment.propsWithin ["Point"] 2 = some props' ∧
        (props' = [] ∨ List.Forall₂ Pruned props props') := by
  have hmem : ∀ shown ∈ ([] : Trail), shown ∈ ["Point"] := fun _ h => absurd h List.not_mem_nil
  have hends : Acc segment.Follows (.expand [] 2) :=
    (isSome_outcome_iff_acc _).1 (by decide +kernel)
  exact ⟨hmem, hends, (longer_trail_prunes segment hmem (Nat.zero_le _) 2).2 hends⟩

end TypeTable

end PropSchema
