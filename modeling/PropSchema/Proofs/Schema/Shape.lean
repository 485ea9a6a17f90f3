import PropSchema.Proofs.Schema.CutOff
import PropSchema.Proofs.Ty.UnionShape

namespace PropSchema

namespace PropDefinition

inductive IsNode : PropDefinition → PropDefinition → Prop
  | self {p} : IsNode p p
  | child {n c p children} : p.children = some children → c ∈ children → IsNode n c → IsNode n p

structure WellFormed (p : PropDefinition) : Prop where
  exclusive : p.options = none ∨ p.children = none
  choice : ∀ options, p.options = some options →
    p.type = "enum-literal" ∧ options.Pairwise (· ≤ ·)
  group : ∀ children, p.children = some children → p.type = "object" ∨ p.type = "union"
  union : ∀ children, p.type = "union" → p.children = some children →
    children ≠ [] ∧ ∀ c ∈ children, c.name = p.name ∧ c.required = p.required

def WellShaped (p : PropDefinition) : Prop :=
  ∀ n : PropDefinition, n.IsNode p → n.WellFormed

variable {name type : String} {required : Bool} {children : List PropDefinition}

theorem WellShaped.of_children {p : PropDefinition} (h : p.WellFormed)
    (hc : ∀ children, p.children = some children → ∀ c ∈ children, c.WellShaped) : p.WellShaped := by
  intro n hn
  cases hn with
  | self => exact h
  | child hchildren hmem hn => exact hc _ hchildren _ hmem n hn

theorem wellShaped_plain : (plain name type required).WellShaped := by
  refine .of_children ⟨.inl rfl, ?_, ?_, ?_⟩ ?_
  · rintro options ⟨⟩
  · rintro children ⟨⟩
  · rintro children - ⟨⟩
  · rintro children ⟨⟩

theorem wellShaped_choice {options : List String} (h : options.Pairwise (· ≤ ·)) :
    (choice name TypeKind.enumLiteral.label required options).WellShaped := by
  refine .of_children ⟨.inr rfl, ?_, ?_, ?_⟩ ?_
  · rintro options ⟨⟩
    exact ⟨rfl, h⟩
  · rintro children ⟨⟩
  · rintro children - ⟨⟩
  · rintro children ⟨⟩

theorem wellShaped_object (h : ∀ c ∈ children, c.WellShaped) :
    (group name TypeKind.object.label required children).WellShaped := by
  refine .of_children ⟨.inl rfl, ?_, ?_, ?_⟩ ?_
  · rintro options ⟨⟩
  · rintro children ⟨⟩
    exact .inl rfl
  · intro children hunion
    have hne : TypeKind.object.label ≠ "union" := by decide
    exact absurd hunion hne
  · rintro children ⟨⟩
    exact h

theorem wellShaped_union (hne : children ≠ [])
    (h : ∀ c ∈ children, c.WellShaped ∧ c.name = name ∧ c.required = required) :
    (group name TypeKind.union.label required children).WellShaped := by
  refine .of_children ⟨.inl rfl, ?_, ?_, ?_⟩ ?_
  · rintro options ⟨⟩
  · rintro children ⟨⟩
    exact .inr rfl
  · rintro children - ⟨⟩
    exact ⟨hne, fun c hc => (h c hc).2⟩
  · rintro children ⟨⟩
    exact fun c hc => (h c hc).1

end PropDefinition

namespace TypeTable

variable {t : TypeTable}

theorem pairwise_options {ty : TypeId} {options : List String}
    (h : t.unionShape ty = .literals options) : options.Pairwise (· ≤ ·) := by
  rw [eq_sortedOptions h]
  exact t.pairwise_sortedOptions _

section Definition

variable {expand : TypeId → Option (List PropDefinition)} {name : String} {required : Bool}
  {p : PropDefinition}

theorem wellShaped_propByForm {nested : TypeId → Option PropDefinition} {ty : TypeId}
    (hexpand : ∀ ty props, expand ty = some props → ∀ p ∈ props, p.WellShaped)
    (hnested : ∀ ty p, nested ty = some p → p.WellShaped ∧ p.name = name ∧ p.required = required)
    (h : t.propByForm expand nested name required ty = some p) :
    p.WellShaped ∧ p.name = name ∧ p.required = required := by
  simp only [propByForm] at h
  split at h
  · split at h
    · cases h
      exact ⟨PropDefinition.wellShaped_plain, rfl, rfl⟩
    · next hshape =>
      cases h
      exact ⟨PropDefinition.wellShaped_choice (pairwise_options hshape), rfl, rfl⟩
    · exact hnested _ p h
    · cases h
      exact ⟨PropDefinition.wellShaped_plain, rfl, rfl⟩
    · next hne _ =>
      obtain ⟨children, hchildren, rfl⟩ := Option.map_eq_some_iff.1 h
      refine ⟨PropDefinition.wellShaped_union ?_ ?_, rfl, rfl⟩
      · rintro rfl
        exact hne (mapM_eq_nil hchildren)
      · intro c hc
        obtain ⟨v, -, hv⟩ := mem_mapM hchildren hc
        exact hnested v c hv
  · cases h
    exact ⟨PropDefinition.wellShaped_choice (List.pairwise_singleton ..), rfl, rfl⟩
  · obtain ⟨children, hchildren, rfl⟩ := Option.map_eq_some_iff.1 h
    exact ⟨PropDefinition.wellShaped_object (hexpand ty children hchildren), rfl, rfl⟩
  · cases h
    exact ⟨PropDefinition.wellShaped_plain, rfl, rfl⟩

theorem wellShaped_propAt {nesting : Nat} {ty : TypeId}
    (hexpand : ∀ ty props, expand ty = some props → ∀ p ∈ props, p.WellShaped)
    (h : t.propAt expand name required nesting ty = some p) :
    p.WellShaped ∧ p.name = name ∧ p.required = required := by
  induction nesting generalizing ty p with
  | zero => cases h
  | succ nesting ih =>
    rw [propAt] at h
    split at h
    · cases h
      exact ⟨PropDefinition.wellShaped_plain, rfl, rfl⟩
    · exact wellShaped_propByForm hexpand (fun _ _ => ih) h

end Definition

theorem wellShaped_propsAt {room : Nat} {trail : Trail} {ty : TypeId} {props : List PropDefinition}
    (h : t.propsAt room trail ty = some props) : ∀ p ∈ props, p.WellShaped := by
  induction room generalizing trail ty props with
  | zero =>
    cases h
    exact fun _ => nofun
  | succ room ih =>
    rw [propsAt] at h
    split at h
    · cases h
      exact fun _ => nofun
    · intro p hp
      obtain ⟨m, -, hm⟩ := mem_mapM h hp
      exact (wellShaped_propAt (fun _ _ => ih) hm).1

theorem nodes_wellFormed (t : TypeTable) (trail : Trail) (ty : TypeId) :
    (∀ props, t.propsWithin trail ty = some props →
      ∀ p ∈ props, ∀ n : PropDefinition, n.IsNode p → n.WellFormed) ∧
    ∀ name optional p, t.propWithin trail name optional ty = some p →
      ∀ n : PropDefinition, n.IsNode p → n.WellFormed := by
  constructor
  · intro props h
    exact wellShaped_propsAt h
  · intro name optional p h
    exact (wellShaped_propAt (fun _ _ => wellShaped_propsAt) h).1

def width : TypeTable where
  entries := #[⟨.primitive .number, none⟩, ⟨.stringLiteral "auto", none⟩, ⟨.primitive .undefined, none⟩,
    ⟨.union [0, 1, 2], none⟩]

theorem propWithin_width : width.propWithin [] "width" true 3 =
    some (.group "width" "union" false
      [.plain "width" "number" false, .choice "width" "enum-literal" false ["auto"]]) := by
  have hatomic : Label.isAtomic (width.display (width.declared 3)) = false := by decide +kernel
  have hkind : width.kind (width.declared 3) = .union := rfl
  have hsorted : [0, 1].mergeSort (fun a b => decide (width.variantRank a ≤ width.variantRank b)) =
      [0, 1] := List.mergeSort_of_pairwise (by decide +kernel)
  have hshape : width.unionShape 3 = .mixed [0, 1] := congrArg UnionShape.mixed hsorted
  have hlevels : width.unionLevels = 4 + 1 := rfl
  rw [propWithin, hlevels, propAt]
  simp only [hatomic, propByForm, hkind, hshape]
  rfl

theorem nodes_wellFormed_width :
    ∃ p, width.propWithin [] "width" true 3 = some p ∧ p.type = "union" ∧
      ∀ n : PropDefinition, n.IsNode p → n.WellFormed := by
  exact ⟨_, propWithin_width, rfl, (nodes_wellFormed width [] 3).2 _ _ _ propWithin_width⟩

end TypeTable

end PropSchema
