import Mathlib.Order.WellFounded
import Mathlib.Logic.Relation
import PropSchema.Proofs.Schema.Embedding
import PropSchema.Proofs.Ty.Union

/-!
When the extraction ends. The bound on nested unions is never felt: the props of a type and the
definition of a prop satisfy equations without it. A result is missing exactly if moments of the
extraction follow from one another without end. None do if no union is nested in itself, however
objects refer back to one another.
-/

namespace PropSchema

/-- A moment of the extraction: the props of a type are asked for, the type is on the trail and its
members are due, or one prop is to be defined. -/
inductive Moment
  | expand (trail : Trail) (ty : TypeId)
  | enter (trail : Trail) (ty : TypeId)
  | define (trail : Trail) (name : String) (optional : Bool) (ty : TypeId)

def UnionShape.types : UnionShape → List TypeId
  | .single type => [type]
  | .mixed variants => variants
  | _ => []

namespace TypeTable

def IsVariant (t : TypeTable) (v u : TypeId) : Prop := v ∈ t.present (t.variants u)

def isAtomic (t : TypeTable) (ty : TypeId) : Bool := Label.isAtomic (t.display (t.declared ty))

inductive Follows (t : TypeTable) : Moment → Moment → Prop
  | enter {trail ty} : t.display ty ∉ trail → trail.length < Trail.limit →
    Follows t (.enter (t.display ty :: trail) ty) (.expand trail ty)
  | member {trail ty m} : m ∈ t.members ty → m.declaration.isSome →
    Follows t (.define trail m.name m.optional m.site) (.enter trail ty)
  | variant {trail name optional ty v} : ¬ t.isAtomic ty → t.kind (t.declared ty) = .union →
    v ∈ (t.unionShape ty).types →
    Follows t (.define trail name optional v) (.define trail name optional ty)
  | object {trail name optional ty} : ¬ t.isAtomic ty → t.kind (t.declared ty) = .object →
    Follows t (.expand trail ty) (.define trail name optional ty)

def outcome (t : TypeTable) : Moment → Option (List PropDefinition)
  | .expand trail ty => t.propsWithin trail ty
  | .enter trail ty => ((t.members ty).filter (·.declaration.isSome)).mapM fun m =>
    t.propWithin trail m.name m.optional m.site
  | .define trail name optional ty => (t.propWithin trail name optional ty).map ([·])

variable {t : TypeTable} {trail : Trail} {name : String} {optional required : Bool} {ty v : TypeId}
  {expand : TypeId → Option (List PropDefinition)}

theorem isVariant_of_mem_types (h : v ∈ (t.unionShape ty).types) : t.IsVariant v ty := by
  simp only [unionShape, List.partition_eq_filter_filter] at h
  split at h
  · split at h <;> cases h
  split at h
  · next hothers =>
    have hv : v ∈ [_] := h
    rw [← hothers] at hv
    exact (List.mem_filter.1 hv).1
  · exact List.mem_mergeSort.1 h

theorem lt_size_of_isVariant (h : t.IsVariant v ty) : ty < t.size := by
  apply Nat.lt_of_not_le
  intro hle
  have hnone : t.variants ty = [] := by rw [variants, form_of_entry (entry_of_size_le hle)]
  rw [IsVariant, present, hnone] at h
  cases h

theorem isSome_mapM {α β : Type} {f : α → Option β} {l : List α} :
    (l.mapM f).isSome ↔ ∀ a ∈ l, (f a).isSome := by
  induction l with
  | nil => simp
  | cons a l ih =>
    rw [List.mapM_cons, List.forall_mem_cons, ← ih]
    cases f a with
    | none => simp
    | some b => cases l.mapM f <;> simp

theorem mapM_congr {α β : Type} {f g : α → Option β} {l : List α} (h : ∀ a ∈ l, f a = g a) :
    l.mapM f = l.mapM g := by
  induction l with
  | nil => rfl
  | cons a l ih =>
    rw [List.forall_mem_cons] at h
    rw [List.mapM_cons, List.mapM_cons, h.1, ih h.2]

section Nested

variable {nested nested' : TypeId → Option PropDefinition}

theorem propByForm_congr (h : ∀ v ∈ (t.unionShape ty).types, nested v = nested' v) :
    t.propByForm expand nested name required ty =
      t.propByForm expand nested' name required ty := by
  simp only [propByForm]
  cases t.kind (t.declared ty) with
  | union =>
    generalize t.unionShape ty = shape at h
    cases shape with
    | single inner => exact h inner (List.mem_singleton_self inner)
    | mixed variants =>
      cases variants with
      | nil => rfl
      | cons first rest => exact congrArg (Option.map _) (mapM_congr h)
    | _ => rfl
  | _ => rfl

theorem isSome_propByForm :
    (t.propByForm expand nested name required ty).isSome ↔
      (t.kind (t.declared ty) = .union → ∀ v ∈ (t.unionShape ty).types, (nested v).isSome) ∧
        (t.kind (t.declared ty) = .object → (expand ty).isSome) := by
  simp only [propByForm]
  cases t.kind (t.declared ty) with
  | union =>
    cases t.unionShape ty with
    | single inner => simp [UnionShape.types]
    | mixed variants =>
      cases variants with
      | nil => simp [UnionShape.types]
      | cons first rest =>
        simp only [Option.map_eq_map, Option.isSome_map, isSome_mapM, UnionShape.types]; simp
    | _ => simp [UnionShape.types]
  | _ => simp

end Nested

theorem propAt_of_size_le (h : t.size ≤ ty) (nesting : Nat) :
    t.propAt expand name required (nesting + 1) ty =
      t.propAt expand name required (nesting + 2) ty := by
  have htypes : ∀ v ∈ (t.unionShape ty).types,
      t.propAt expand name required nesting v = t.propAt expand name required (nesting + 1) v := by
    intro v hv
    exact absurd (lt_size_of_isVariant (isVariant_of_mem_types hv)) (Nat.not_lt.2 h)
  rw [propAt, propAt, propByForm_congr htypes]

/-- More nesting than the bound allows for defines nothing new. -/
theorem propAt_unionLevels (ty : TypeId) :
    t.propAt expand name required t.unionLevels ty =
      t.propAt expand name required (t.unionLevels + 1) ty := by
  let f (nesting : Nat) (ty : TypeId) := t.propAt expand name required (nesting + 1) ty
  have hstep : ∀ n, (∀ ty < t.size, f n ty = f (n + 1) ty) →
      ∀ ty < t.size, f (n + 1) ty = f (n + 2) ty := by
    intro n hsame ty _
    have hall : ∀ v ∈ (t.unionShape ty).types, f n v = f (n + 1) v := by
      intro v _
      by_cases hv : v < t.size
      · exact hsame v hv
      · exact propAt_of_size_le (Nat.le_of_not_lt hv) n
    simp only [f] at hall ⊢
    rw [propAt, propAt, propByForm_congr hall]
  by_cases hty : ty < t.size
  · exact settled_of_mono (fun n => propAt_mono (n + 1)) hstep (Nat.le_refl t.size) ty hty
  · exact propAt_of_size_le (Nat.le_of_not_lt hty) t.size

theorem propWithin_eq (trail : Trail) (name : String) (optional : Bool) (ty : TypeId) :
    t.propWithin trail name optional ty =
      if t.isAtomic ty then
        some (.plain name (Label.clean (t.display (t.declared ty))) (! optional))
      else
        t.propByForm (t.propsWithin trail) (t.propWithin trail name optional) name (! optional)
          ty := by
  rw [propWithin, propAt_unionLevels, propAt]
  rfl

theorem propsWithin_eq (trail : Trail) (ty : TypeId) :
    t.propsWithin trail ty =
      if t.display ty ∈ trail ∨ Trail.limit ≤ trail.length then some []
      else ((t.members ty).filter (·.declaration.isSome)).mapM fun m =>
        t.propWithin (t.display ty :: trail) m.name m.optional m.site := by
  rw [propsWithin]
  cases hroom : Trail.limit - trail.length with
  | zero => rw [propsAt, if_pos (.inr (Nat.le_of_sub_eq_zero hroom))]
  | succ room =>
    have hlimit : ¬ Trail.limit ≤ trail.length := by omega
    have hrest : room = Trail.limit - (t.display ty :: trail).length := by
      rw [List.length_cons]
      omega
    simp only [propsAt, or_iff_left hlimit, List.contains_iff_mem, hrest]
    rfl

theorem isSome_outcome_iff (moment : Moment) :
    (t.outcome moment).isSome ↔ ∀ next, t.Follows next moment → (t.outcome next).isSome := by
  cases moment with
  | expand trail ty =>
    have heq : t.outcome (.expand trail ty) =
        if t.display ty ∈ trail ∨ Trail.limit ≤ trail.length then some []
        else t.outcome (.enter (t.display ty :: trail) ty) := propsWithin_eq trail ty
    rw [heq]
    split
    · next hcut =>
      refine iff_of_true rfl fun next hnext => ?_
      cases hnext with
      | enter hnew hroom => exact absurd hcut (by simp [hnew, hroom])
    · next hcut =>
      rw [not_or, Nat.not_le] at hcut
      constructor
      · intro h next hnext
        cases hnext
        exact h
      · intro h
        exact h _ (.enter hcut.1 hcut.2)
  | enter trail ty =>
    simp only [outcome, isSome_mapM, List.mem_filter, and_imp]
    constructor
    · intro h next hnext
      cases hnext with
      | member hm hdeclared => simpa [outcome] using h _ hm hdeclared
    · intro h m hm hdeclared
      simpa [outcome] using h _ (.member hm hdeclared)
  | define trail name optional ty =>
    rw [outcome, Option.isSome_map, propWithin_eq]
    split
    · next hatomic =>
      refine iff_of_true rfl fun next hnext => ?_
      cases hnext <;> contradiction
    · next hatomic =>
      rw [isSome_propByForm]
      constructor
      · intro h next hnext
        cases hnext with
        | variant _ hkind hv => simpa [outcome] using h.1 hkind _ hv
        | object _ hkind => exact h.2 hkind
      · intro h
        refine ⟨fun hkind v hv => ?_, fun hkind => h _ (.object hatomic hkind)⟩
        simpa [outcome] using h _ (.variant hatomic hkind hv)

theorem acc_define (hexpand : ∀ ty, Acc t.Follows (.expand trail ty))
    (hty : Acc t.IsVariant ty) : Acc t.Follows (.define trail name optional ty) := by
  induction hty with
  | intro ty _ ih =>
    constructor
    intro next hnext
    cases hnext with
    | variant _ _ hv => exact ih _ (isVariant_of_mem_types hv)
    | object _ _ => exact hexpand ty

theorem acc_enter (hexpand : ∀ ty, Acc t.Follows (.expand trail ty))
    (h : WellFounded t.IsVariant) (ty : TypeId) : Acc t.Follows (.enter trail ty) := by
  constructor
  intro next hnext
  cases hnext with
  | member _ _ => exact acc_define hexpand (h.apply _)

theorem acc_expand (h : WellFounded t.IsVariant) (trail : Trail) (ty : TypeId) :
    Acc t.Follows (.expand trail ty) := by
  -- By the room that is left on the trail: each expansion takes one place.
  induction hroom : Trail.limit - trail.length using Nat.strongRecOn generalizing trail ty with
  | ind room ih =>
    constructor
    intro next hnext
    cases hnext with
    | enter _ hlimit =>
      apply acc_enter _ h
      intro ty'
      apply ih _ _ _ _ rfl
      rw [List.length_cons]
      omega

theorem wellFounded_follows (h : WellFounded t.IsVariant) : WellFounded t.Follows := by
  constructor
  intro moment
  cases moment with
  | expand trail ty => exact acc_expand h trail ty
  | enter trail ty => exact acc_enter (acc_expand h trail) h ty
  | define trail name optional ty => exact acc_define (acc_expand h trail) (h.apply ty)

theorem isSome_outcome_of_acc {moment : Moment} (h : Acc t.Follows moment) : (t.outcome moment).isSome := by
  induction h with
  | intro moment _ ih => exact (isSome_outcome_iff moment).2 ih

theorem propAt_of_not_isAtomic (h : ¬ t.isAtomic ty) (nesting : Nat) :
    t.propAt expand name required (nesting + 1) ty =
      t.propByForm expand (t.propAt expand name required nesting) name required ty :=
  if_neg h

theorem acc_define_of_isSome
    (hexpand : ∀ ty, (t.propsWithin trail ty).isSome → Acc t.Follows (.expand trail ty))
    {nesting : Nat}
    (h : (t.propAt (t.propsWithin trail) name (! optional) nesting ty).isSome) :
    Acc t.Follows (.define trail name optional ty) := by
  induction nesting generalizing ty with
  | zero => cases h
  | succ nesting ih =>
    constructor
    intro next hnext
    cases hnext with
    | variant hatomic hkind hv =>
      rw [propAt_of_not_isAtomic hatomic, isSome_propByForm] at h
      exact ih (h.1 hkind _ hv)
    | object hatomic hkind =>
      rw [propAt_of_not_isAtomic hatomic, isSome_propByForm] at h
      exact hexpand ty (h.2 hkind)

theorem acc_enter_of_isSome
    (hexpand : ∀ ty, (t.propsWithin trail ty).isSome → Acc t.Follows (.expand trail ty))
    (h : (t.outcome (.enter trail ty)).isSome) : Acc t.Follows (.enter trail ty) := by
  constructor
  intro next hnext
  have hprop := (isSome_outcome_iff _).1 h next hnext
  cases hnext with
  | member hm hdeclared => exact acc_define_of_isSome hexpand (by simpa [outcome, propWithin] using hprop)

theorem acc_expand_of_isSome (trail : Trail) (ty : TypeId) (h : (t.propsWithin trail ty).isSome) :
    Acc t.Follows (.expand trail ty) := by
  induction hroom : Trail.limit - trail.length using Nat.strongRecOn generalizing trail ty with
  | ind room ih =>
    constructor
    intro next hnext
    have hinside := (isSome_outcome_iff (.expand trail ty)).1 h next hnext
    cases hnext with
    | enter _ hlimit =>
      apply acc_enter_of_isSome _ hinside
      intro ty' hty'
      apply ih _ _ _ _ hty' rfl
      rw [List.length_cons]
      omega

/-- A result is missing exactly where the extraction would go on for ever. -/
theorem isSome_outcome_iff_acc (moment : Moment) :
    (t.outcome moment).isSome ↔ Acc t.Follows moment := by
  refine ⟨fun h => ?_, isSome_outcome_of_acc⟩
  cases moment with
  | expand trail ty => exact acc_expand_of_isSome trail ty h
  | enter trail ty => exact acc_enter_of_isSome (acc_expand_of_isSome trail) h
  | define trail name optional ty =>
    exact acc_define_of_isSome (acc_expand_of_isSome trail) (by simpa [outcome, propWithin] using h)

theorem wellFounded_isVariant
    (h : ∀ chain : Nat → TypeId, ∃ i, ¬ t.IsVariant (chain (i + 1)) (chain i)) :
    WellFounded t.IsVariant := by
  rw [wellFounded_iff_isEmpty_descending_chain]
  constructor
  intro ⟨chain, hchain⟩
  obtain ⟨i, hi⟩ := h chain
  exact hi (hchain i)

end TypeTable

end PropSchema
