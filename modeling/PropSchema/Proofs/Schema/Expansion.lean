import PropSchema.Proofs.Schema.SharedTrail
import PropSchema.Proofs.Schema.Widening
import PropSchema.Proofs.Ty.Label
import PropSchema.Proofs.Ty.UnionShape

namespace PropSchema

structure ObjectType.IsLiteral (o : ObjectType) : Prop where
  unnamed : o.name = none
  uncallable : o.calls = []
  declares : ∃ m ∈ o.members, m.declaration.isSome

theorem ObjectType.IsLiteral.members_ne_nil {o : ObjectType} (h : o.IsLiteral) :
    o.members ≠ [] := by
  obtain ⟨m, hm, -⟩ := h.declares
  exact List.ne_nil_of_mem hm

theorem ObjectType.IsLiteral.kind_eq {o : ObjectType} (h : o.IsLiteral) :
    (Form.object o).kind = .object := by
  simp [Form.kind, h.uncallable, h.members_ne_nil]

theorem Form.isLiteral_of_isBooleanLiteral {f : Form} (h : f.isBooleanLiteral) : f.isLiteral := by
  cases f with
  | booleanLiteral value => rfl
  | _ => cases h

namespace TypeTable

variable {t : TypeTable} {name : String} {optional : Bool} {ty : TypeId} {parts : List TypeId}
  {o : ObjectType} {f : Form}

structure HasForm (t : TypeTable) (ty : TypeId) (f : Form) : Prop where
  own : t.form ty = f
  declared : t.form (t.declared ty) = f
  behind : t.form (t.declared (t.declared ty)) = f

theorem HasForm.kind_eq (h : t.HasForm ty f) : t.kind (t.declared ty) = f.kind := by
  rw [kind, h.behind]

/-- Whether the text of a structure reads as a label. A second alias is written by its name, any
other structure in pieces. -/
def readsAsLabel (t : TypeTable) (id : TypeId) : Bool :=
  match t.alias? id with
  | some a => Label.isAtomic a.name
  | none => Label.readsAsLabel (t.pieces id)

structure IsMixedUnion (t : TypeTable) (parts : List TypeId) : Prop where
  several : 2 ≤ (t.present parts).length
  other : ∃ v ∈ t.present parts, ¬ (t.form v).isLiteral

theorem isAtomic_of_object (h : t.HasForm ty (.object o)) (ho : o.IsLiteral) :
    t.isAtomic ty = t.readsAsLabel (t.declared ty) := by
  rw [isAtomic, readsAsLabel]
  cases halias : t.alias? (t.declared ty) with
  | some a => rw [display_of_alias halias]
  | none =>
    rw [display_of_object halias h.declared ho.unnamed ho.uncallable ho.members_ne_nil]
    apply Label.isAtomic_intercalate Label.isSeparator_blank
    simp [pieces, h.declared]

theorem isAtomic_of_union (h : t.HasForm ty (.union parts)) (hmixed : t.IsMixedUnion parts) :
    t.isAtomic ty = t.readsAsLabel (t.declared ty) := by
  rw [isAtomic, readsAsLabel]
  cases halias : t.alias? (t.declared ty) with
  | some a => rw [display_of_alias halias]
  | none =>
    rw [display_of_union halias h.declared]
    apply Label.isAtomic_intercalate Label.isSeparator_bar
    simp only [pieces, h.declared, List.length_map]
    apply two_le_length_foldBooleans (hmixed.several.trans (List.length_filter_le _ _))
    obtain ⟨v, hv, hnot⟩ := hmixed.other
    have hother : ¬ (t.form v).isBooleanLiteral := fun hbool =>
      hnot (Form.isLiteral_of_isBooleanLiteral hbool)
    exact ⟨v, List.mem_of_mem_filter hv, hother⟩

theorem propByForm_of_object (h : t.HasForm ty (.object o)) (ho : o.IsLiteral) :
    t.propByForm (t.propsWithin []) (t.propWithin [] name optional) name (! optional) ty =
      ((o.members.filter (·.declaration.isSome)).mapM fun m =>
        t.propWithin [t.display ty] m.name m.optional m.site).map
          (.group name "object" (! optional)) := by
  have hopen : ¬ (t.display ty ∈ ([] : Trail) ∨ Trail.limit ≤ ([] : Trail).length) := by
    simp [Trail.limit]
  simp only [propByForm, h.kind_eq, ho.kind_eq]
  rw [propsWithin_eq, if_neg hopen, members_of_object h.own]
  rfl

theorem unionShape_of_isMixedUnion (h : t.form ty = .union parts) (hmixed : t.IsMixedUnion parts) :
    t.unionShape ty = .mixed (t.sortedByRank (t.present parts)) := by
  have hvariants : t.variants ty = parts := by rw [variants, h]
  apply HasShape.unionShape_eq
  rw [hvariants]
  refine .mixed (fun _ => hmixed.other) ?_
  have hseveral := hmixed.several
  omega

theorem propByForm_of_isMixedUnion (h : t.HasForm ty (.union parts))
    (hmixed : t.IsMixedUnion parts) :
    t.propByForm (t.propsWithin []) (t.propWithin [] name optional) name (! optional) ty =
      ((t.sortedByRank (t.present parts)).mapM (t.propWithin [] name optional)).map
        (.group name "union" (! optional)) := by
  have hne : t.sortedByRank (t.present parts) ≠ [] := by
    rw [← List.length_pos_iff, (t.sortedByRank_perm _).length_eq]
    exact Nat.zero_lt_of_lt hmixed.several
  obtain ⟨first, rest, hcons⟩ := List.exists_cons_of_ne_nil hne
  simp only [propByForm, h.kind_eq, Form.kind, unionShape_of_isMixedUnion h.own hmixed, hcons]
  rfl

theorem structure_expanded_unless_label (t : TypeTable) (name : String) (optional : Bool)
    (ty : TypeId) (hends : Acc t.Follows (.define [] name optional ty)) :
    (∀ o, t.HasForm ty (.object o) → o.IsLiteral →
      if t.readsAsLabel (t.declared ty) then
        t.propWithin [] name optional ty = some (t.leaf name (! optional) ty)
      else ∃ children,
        t.propWithin [] name optional ty = some (.group name "object" (! optional) children) ∧
          List.Forall₂ (fun m c => t.propWithin [t.display ty] m.name m.optional m.site = some c)
            (o.members.filter (·.declaration.isSome)) children) ∧
    ∀ parts, t.HasForm ty (.union parts) → t.IsMixedUnion parts →
      if t.readsAsLabel (t.declared ty) then
        t.propWithin [] name optional ty = some (t.leaf name (! optional) ty)
      else ∃ variants children, variants.Perm (t.present parts) ∧
        t.propWithin [] name optional ty = some (.group name "union" (! optional) children) ∧
          List.Forall₂ (fun v c => t.propWithin [] name optional v = some c) variants children := by
  obtain ⟨p, hp⟩ := exists_propWithin hends
  have heq := propWithin_eq (t := t) [] name optional ty
  constructor
  · intro o h ho
    rw [isAtomic_of_object h ho] at heq
    split
    · next hreads => exact heq.trans (if_pos hreads)
    · next hreads =>
      rw [if_neg hreads, propByForm_of_object h ho, hp, eq_comm, Option.map_eq_some_iff] at heq
      obtain ⟨children, hchildren, rfl⟩ := heq
      exact ⟨children, hp, mapM_eq_some_iff.1 hchildren⟩
  · intro parts h hmixed
    rw [isAtomic_of_union h hmixed] at heq
    split
    · next hreads => exact heq.trans (if_pos hreads)
    · next hreads =>
      rw [if_neg hreads, propByForm_of_isMixedUnion h hmixed, hp, eq_comm,
        Option.map_eq_some_iff] at heq
      obtain ⟨children, hchildren, rfl⟩ := heq
      exact ⟨_, children, t.sortedByRank_perm _, hp, mapM_eq_some_iff.1 hchildren⟩

def sized : ObjectType := ⟨none, [⟨"width", 2, 2, false, some ⟨0, 1⟩⟩], []⟩

def panel : TypeTable where
  entries := #[⟨.primitive .number, none⟩, ⟨.stringLiteral "auto", none⟩, ⟨.union [0, 1], none⟩,
    ⟨.object sized, none⟩]

theorem wellFounded_isVariant_panel : WellFounded panel.IsVariant := by
  have hlt : ∀ u < 4, ∀ v ∈ panel.present (panel.variants u), v < u := by decide
  refine Subrelation.wf (r := (· < ·)) (fun {v u} h => ?_) Nat.lt_wfRel.wf
  exact hlt u (lt_size_of_isVariant h) v h

theorem structure_expanded_panel :
    (panel.HasForm 2 (.union [0, 1]) ∧ panel.IsMixedUnion [0, 1] ∧
      ∃ children,
        panel.propWithin [] "width" true 2 = some (.group "width" "union" false children) ∧
          children.length = 2) ∧
    panel.HasForm 3 (.object sized) ∧ sized.IsLiteral ∧
      ∃ children, panel.propWithin [] "box" false 3 = some (.group "box" "object" true children) ∧
        children.length = 1 := by
  have hends := wellFounded_follows wellFounded_isVariant_panel
  have hunion : panel.HasForm 2 (.union [0, 1]) :=
    ⟨by decide +kernel, by decide +kernel, by decide +kernel⟩
  have hmixed : panel.IsMixedUnion [0, 1] := ⟨by decide +kernel, by decide +kernel⟩
  have hobject : panel.HasForm 3 (.object sized) :=
    ⟨by decide +kernel, by decide +kernel, by decide +kernel⟩
  have hliteral : sized.IsLiteral := ⟨rfl, rfl, by decide⟩
  refine ⟨⟨hunion, hmixed, ?_⟩, hobject, hliteral, ?_⟩
  · have hwidth := structure_expanded_unless_label panel "width" true 2 (hends.apply _)
    have h := hwidth.2 _ hunion hmixed
    rw [if_neg (by decide +kernel)] at h
    obtain ⟨variants, children, hperm, hp, hall⟩ := h
    exact ⟨children, hp, hall.length_eq.symm.trans hperm.length_eq⟩
  · have hbox := structure_expanded_unless_label panel "box" false 3 (hends.apply _)
    have h := hbox.1 _ hobject hliteral
    rw [if_neg (by decide +kernel)] at h
    obtain ⟨children, hp, hall⟩ := h
    exact ⟨children, hp, hall.length_eq.symm⟩

def framed : ObjectType := ⟨none, [⟨"icon", 3, 3, false, some ⟨0, 1⟩⟩], []⟩

def mentions : TypeTable :=
  let t := (({} : TypeTable).primitive .string).2.addForm (.reference "HTMLElement" [])
  let t := (t.2.union [0, 1]).2.addForm (.reference "ReactElement" [0])
  (t.2.addForm (.object framed)).2

/-- Both are shown as a whole, because of the names that occur in them. -/
theorem structure_not_expanded :
    (mentions.HasForm 2 (.union [0, 1]) ∧ mentions.IsMixedUnion [0, 1] ∧
      mentions.propWithin [] "icon" false 2 = some (.plain "icon" "string | HTMLElement" true)) ∧
    mentions.HasForm 4 (.object framed) ∧ framed.IsLiteral ∧
      mentions.propWithin [] "props" false 4 =
        some (.plain "props" "\x7b icon: ReactElement<string>; \x7d" true) := by
  have hunion : mentions.isAtomic 2 = true ∧
      Label.clean (mentions.display (mentions.declared 2)) = "string | HTMLElement" := by
    decide +kernel
  have hobject : mentions.isAtomic 4 = true ∧
      Label.clean (mentions.display (mentions.declared 4)) =
        "\x7b icon: ReactElement<string>; \x7d" := by
    decide +kernel
  refine ⟨⟨⟨by decide +kernel, by decide +kernel, by decide +kernel⟩,
    ⟨by decide +kernel, by decide +kernel⟩, ?_⟩,
    ⟨by decide +kernel, by decide +kernel, by decide +kernel⟩, ⟨rfl, rfl, by decide⟩, ?_⟩
  · rw [propWithin_eq, if_pos hunion.1, hunion.2]
    rfl
  · rw [propWithin_eq, if_pos hobject.1, hobject.2]
    rfl

end TypeTable

end PropSchema
