import PropSchema.Proofs.Component.Forwarding
import PropSchema.Proofs.Component.Stability
import PropSchema.Proofs.Schema.Termination
import PropSchema.Proofs.Schema.Widening
import PropSchema.Proofs.Ty.Label

/-!
Props whose annotations denote types of one form, such as an alias and what it stands for. The
structure of both gives the same prop, but they may be written differently, and what is written is
looked at first.
-/

namespace PropSchema

open Relabelled Relabelling

def TypeKind.isTextual : TypeKind → Bool
  | .union | .enumLiteral | .object => false
  | _ => true

def Label.ofTexts? (kind : TypeKind) (whole shown : String) : Option String :=
  if Label.isAtomic whole then some (Label.clean whole)
  else if kind.isTextual then some (Label.clean shown)
  else none

theorem PropDefinition.elim_label_inj {name kind : String} {options : List String}
    {label label' : Option String} :
    label.elim (choice name kind false options) (plain name · false) =
        label'.elim (choice name kind false options) (plain name · false) ↔ label = label' := by
  cases label <;> cases label' <;> simp [choice, plain]

namespace TypeTable

variable {t u : TypeTable} {x y w : TypeId} {name : String}

theorem lt_size_of_form_ne_pending (h : t.form x ≠ .pending) : x < t.size := by
  apply lt_size_of_not_isOpen
  exact fun hopen => h (form_of_entry hopen)

def structuralProp (t : TypeTable) (name : String) (optional : Bool) (ty : TypeId) :
    Option PropDefinition :=
  t.propByForm (t.propsWithin []) (t.propWithin [] name optional) name (! optional) ty

/-- If the type is written as the label, its prop is the same: it is defined by its text, which is
the label; or the label decides, for what the type defines anyway; or neither the label decides, nor
the text of the type, unless for what the structure gives. -/
structure LabelFits (t : TypeTable) (label name : String) (optional : Bool) (ty : TypeId) :
    Prop where
  textual : (t.form ty).kind.isTextual →
    Label.clean label = Label.clean (t.display (t.declared ty))
  decisive : ¬ (t.form ty).kind.isTextual → Label.isAtomic label →
    t.propWithin [] name optional ty = some (.plain name (Label.clean label) (! optional))
  structural : ¬ (t.form ty).kind.isTextual → ¬ Label.isAtomic label → t.isAtomic ty →
    t.structuralProp name optional ty = some (t.leaf name (! optional) ty)

def optionalProp (t : TypeTable) (name : String) (ty : TypeId) : Option PropDefinition :=
  (t.optional ty).2.propWithin [] name true (t.optional ty).1

def optionalText (t : TypeTable) (ty : TypeId) : String :=
  (t.optional ty).2.display (t.optional ty).1

theorem foldBooleans_undefined {undef : TypeId} (h : t.form undef = .primitive .undefined) :
    t.foldBooleans [x, undef] = [some x, some undef] := by
  simp only [foldBooleans, List.any_cons, List.any_nil, h]
  rw [if_neg]
  · rfl
  · -- The first type cannot be both boolean literals.
    simp only [Bool.and_eq_true, Bool.or_eq_true, beq_iff_eq, reduceCtorEq, or_false, not_and]
    intro hyes hno
    rw [hyes] at hno
    cases hno

theorem labelFits_display (t : TypeTable) (name : String) (optional : Bool) (ty : TypeId) :
    t.LabelFits (t.display (t.declared ty)) name optional ty where
  textual _ := rfl
  decisive _ hatomic := by
    rw [propWithin_eq]
    exact if_pos hatomic
  structural _ hnot hatomic := absurd hatomic hnot

namespace WellFormed

section

variable (ht : t.WellFormed)

include ht

theorem propByForm_of_textual (hx : t.form x ≠ .pending) (hkind : (t.form x).kind.isTextual)
    (expand : TypeId → Option (List PropDefinition)) (nested : TypeId → Option PropDefinition)
    (required : Bool) :
    t.propByForm expand nested name required x = some (t.leaf name required x) := by
  simp only [propByForm, kind_declared_of_form ht hx]
  cases hk : (t.form x).kind with
  | union | enumLiteral | object =>
    rw [hk] at hkind
    cases hkind
  | _ => rfl

theorem propWithin_of_textual (hx : t.form x ≠ .pending) (hkind : (t.form x).kind.isTextual)
    (optional : Bool) :
    t.propWithin [] name optional x = some (t.leaf name (! optional) x) := by
  rw [propWithin_eq]
  split
  · rfl
  · exact ht.propByForm_of_textual hx hkind _ _ _

theorem optionText_declared (hx : t.form x ≠ .pending) {value : String}
    (hvalue : (t.form x).literal? = some value) : t.optionText (t.declared x) = value := by
  simp only [optionText, ht.form_declared hx, hvalue]

variable (hform : t.form x = t.form y) (hpending : t.form y ≠ .pending)
  (hobject : (t.form y).kind ≠ .object)

include hform hpending hobject

theorem structuralProp_eq_of_form (hkind : ¬ (t.form y).kind.isTextual) (name : String)
    (optional : Bool) :
    t.structuralProp name optional x = t.structuralProp name optional y := by
  have hx := kind_declared_of_form ht (hform ▸ hpending)
  have hy := kind_declared_of_form ht hpending
  have hshape : t.unionShape x = t.unionShape y :=
    unionShape_eq_of_present (by rw [variants, variants, hform])
  rw [hform] at hx
  simp only [structuralProp, propByForm, hx, hy, hshape]
  cases hk : (t.form y).kind with
  | union => rfl
  | enumLiteral =>
    obtain ⟨value, hvalue⟩ := literal?_of_kind hk
    rw [ht.optionText_declared hpending hvalue,
      ht.optionText_declared (hform ▸ hpending) (hform ▸ hvalue)]
  | object => exact absurd hk hobject
  | _ =>
    rw [hk] at hkind
    exact absurd rfl hkind

theorem propWithin_eq_iff (name : String) (optional : Bool) :
    t.propWithin [] name optional x = t.propWithin [] name optional y ↔
      t.LabelFits (t.display (t.declared x)) name optional y := by
  by_cases htext : (t.form y).kind.isTextual
  · rw [ht.propWithin_of_textual (hform ▸ hpending) (hform ▸ htext),
      ht.propWithin_of_textual hpending htext]
    have hleaf : some (t.leaf name (! optional) x) = some (t.leaf name (! optional) y) ↔
        Label.clean (t.display (t.declared x)) = Label.clean (t.display (t.declared y)) := by
      simp [leaf, PropDefinition.plain]
    rw [hleaf]
    exact ⟨fun heq => ⟨fun _ => heq, absurd htext, absurd htext⟩, fun hfits => hfits.textual htext⟩
  · have hsame := ht.structuralProp_eq_of_form hform hpending hobject htext name optional
    by_cases hx : t.isAtomic x
    · have hprop : t.propWithin [] name optional x = some (t.leaf name (! optional) x) := by
        rw [propWithin_eq]
        exact if_pos hx
      rw [hprop, eq_comm]
      exact ⟨fun heq => ⟨fun h => absurd h htext, fun _ _ => heq, fun _ hnot => absurd hx hnot⟩,
        fun hfits => hfits.decisive htext hx⟩
    · have hprop : t.propWithin [] name optional x = t.structuralProp name optional y := by
        rw [propWithin_eq, ← hsame]
        exact if_neg hx
      rw [hprop, propWithin_eq]
      constructor
      · intro heq
        refine ⟨fun h => absurd h htext, fun _ h => absurd h hx, fun _ _ hy => ?_⟩
        rw [heq]
        exact if_pos hy
      · intro hfits
        split
        · next hy => exact hfits.structural htext hx hy
        · rfl

end

section Optional

variable (ht : t.WellFormed) (hx : x < t.size) (hunion : (t.form x).kind ≠ .union)
  (hnull : (t.form x).isNullish = false) (hnever : t.form x ≠ .primitive .never)

include ht hx hunion hnull hnever

theorem union_undefined {undef : TypeId} (hlt : undef < t.size)
    (hundef : t.entry undef = ⟨.primitive .undefined, none⟩) :
    let r := t.union [x, undef]
    r.2.entry r.1 = ⟨.union [x, undef], none⟩ ∧
      r.2.entry undef = ⟨.primitive .undefined, none⟩ := by
  have hform : t.form undef = .primitive .undefined := form_of_entry hundef
  have hne : undef ≠ x := by
    rintro rfl
    rw [hform] at hnull
    cases hnull
  have hparts : ([x, undef].flatMap t.constituents).eraseDups = [x, undef] := by
    rw [ht.parts_widened hform, Widened.constituents_of_not_union hunion hnever]
    simp [List.removeAll, hne]
  have htwo := ht.two_le_parts_widened hform hnull hnever
  rw [union_of_two_le htwo, hparts]
  refine ⟨(ht.intern_sound.entry_intern _).2, ?_⟩
  rw [(grows_intern t _).entry_eq hlt, hundef]

theorem entry_optional :
    ∃ undef, (t.optional x).2.entry (t.optional x).1 = ⟨.union [x, undef], none⟩ ∧
      (t.optional x).2.entry undef = ⟨.primitive .undefined, none⟩ := by
  have hgrow := grows_intern t (.primitive .undefined)
  have hwf := ht.intern (f := .primitive .undefined) (fun _ h => by cases h)
  obtain ⟨hlt, hundef⟩ := ht.intern_sound.entry_intern (.primitive .undefined)
  rw [← ht.form_eq hgrow hx] at hunion hnull hnever
  have hx' := Nat.lt_of_lt_of_le hx hgrow.size_le
  exact ⟨_, hwf.union_undefined hx' hunion hnull hnever hlt hundef⟩

theorem optionalText_of_alias {a : Alias} (ha : t.alias? x = some a) :
    t.optionalText x = a.name ++ " | undefined" := by
  have hgrow := (ht.widened_optional hx hnull hnever).grows
  obtain ⟨undef, hentry, hundef⟩ := ht.entry_optional hx hunion hnull hnever
  have halias : (t.optional x).2.alias? x = some a := by
    rw [alias?, hgrow.entry_eq hx]
    exact ha
  rw [optionalText]
  generalize t.optional x = r at *
  rw [display_of_union (by rw [alias?, hentry]) (form_of_entry hentry), pieces,
    form_of_entry hentry]
  have hoperand : r.2.displayOperand (r.2.displayAt (displayLevels - 1)) false x = a.name := by
    rw [displayOperand, needsParens, halias, displayAt.eq_def]
    simp only [halias]
    rfl
  have hundefined : r.2.displayOperand (r.2.displayAt (displayLevels - 1)) false undef =
      "undefined" := by
    have hnone : r.2.alias? undef = none := by rw [alias?, hundef]
    rw [displayOperand, needsParens, form_of_entry hundef, Bool.and_false,
      displayLevels, displayAt_of_alias_none hnone, form_of_entry hundef]
    rfl
  simp only [foldBooleans_undefined (form_of_entry hundef), List.map_cons, List.map_nil,
    Option.elim_some, hoperand, hundefined]
  rw [String.intercalate_cons_of_ne_nil (by simp), String.append_assoc]
  rfl

theorem optionalProp_of_not_union (hpending : t.form x ≠ .pending)
    (hobject : (t.form x).kind ≠ .object)
    (hempty : (t.form x).literal? ≠ some "")
    (hshown : (t.optional x).2.display ((t.optional x).2.declared x) = t.display (t.declared x)) :
    t.optionalProp name x = some
      ((Label.ofTexts? (t.form x).kind (t.optionalText x) (t.display (t.declared x))).elim
        (.choice name TypeKind.enumLiteral.label false [(t.form x).literal?.getD ""])
        (.plain name · false)) := by
  have hw := ht.widened_optional hx hnull hnever
  have hform := ht.form_eq hw.grows hx
  rw [optionalProp, optionalText, propWithin_eq, isAtomic, hw.declared_eq, Label.ofTexts?]
  generalize t.optional x = r at *
  rw [← hform] at hunion hnull hnever hobject hempty hpending ⊢
  split
  · rfl
  · cases htext : (r.2.form x).kind.isTextual with
    | true =>
      have hlit : (r.2.form x).kind ≠ .enumLiteral := by
        intro hk
        rw [hk] at htext
        cases htext
      rw [hw.propByForm_of_other hunion hlit hnull hnever,
        hw.wellFormed.propWithin_of_textual hpending htext, leaf, hshown]
      rfl
    | false =>
      have hlit : (r.2.form x).kind = .enumLiteral := by
        cases hk : (r.2.form x).kind with
        | union => exact absurd hk hunion
        | enumLiteral => rfl
        | object => exact absurd hk hobject
        | _ =>
          rw [hk] at htext
          cases htext
      obtain ⟨value, hvalue⟩ := literal?_of_kind hlit
      rw [hw.propByForm_of_literal hlit hempty, propByForm,
        kind_declared_of_form hw.wellFormed hpending, hlit,
        hw.wellFormed.optionText_declared hpending hvalue, hvalue]
      rfl

end Optional

theorem optional_eq_of_union (ht : t.WellFormed) (hx : x < t.size) (hy : y < t.size)
    (hform : t.form x = t.form y) (hunion : (t.form y).kind = .union) :
    t.optional x = t.optional y := by
  have hgrow := grows_intern t (.primitive .undefined)
  obtain ⟨parts, hparts⟩ := eq_union_of_kind hunion
  have hconstituents : (t.intern (.primitive .undefined)).2.constituents x =
      (t.intern (.primitive .undefined)).2.constituents y := by
    rw [constituents, constituents, ht.form_eq hgrow hx, ht.form_eq hgrow hy, hform, hparts]
  simp only [optional, primitive, union_eq_unite, List.flatMap_cons, hconstituents]

end WellFormed

end TypeTable

namespace Bindings.Sound

variable {b : Bindings} (hb : b.Sound)

include hb

theorem wellFormed (hcopies : b.table.Copies) : b.table.WellFormed where
  intern_sound := hb.wellMade.intern_sound
  alias_lt _ _ ha := hb.alias_lt ha
  alias_form id a ha hne := by
    have hdeclared := hcopies.form_declared hne
    rwa [TypeTable.declared, ha] at hdeclared
  union_parts id parts h := by
    have hproper := hb.wellMade.proper_formAt TypeTable.aliasHops id
    rw [← TypeTable.form, h] at hproper
    exact hproper Form.noConfusion

theorem display_declared_eq {u : TypeTable} (hu : b.table.Grows u) {x : TypeId}
    (hx : x < b.table.size) :
    u.display (u.declared x) = b.table.display (b.table.declared x) := by
  have hmirrors := (hb.embeds_table hu).mirrors
  exact (hmirrors.display_eq _ _ (hmirrors.declared_takes (takes_self hx))).symm

theorem optionalProp_eq_iff (ht : b.table.WellFormed) {x y : TypeId}
    (hform : b.table.form x = b.table.form y) (hpending : b.table.form y ≠ .pending)
    (hobject : (b.table.form y).kind ≠ .object) (hnull : (b.table.form y).isNullish = false)
    (hnever : b.table.form y ≠ .primitive .never) (hempty : (b.table.form y).literal? ≠ some "")
    (name : String) :
    b.table.optionalProp name x = b.table.optionalProp name y ↔
      (b.table.form y).kind = .union ∨
        Label.ofTexts? (b.table.form y).kind (b.table.optionalText x)
            (b.table.display (b.table.declared x)) =
          Label.ofTexts? (b.table.form y).kind (b.table.optionalText y)
            (b.table.display (b.table.declared y)) := by
  have hx := TypeTable.lt_size_of_form_ne_pending (hform ▸ hpending)
  have hy := TypeTable.lt_size_of_form_ne_pending hpending
  by_cases hunion : (b.table.form y).kind = .union
  · rw [TypeTable.optionalProp, TypeTable.optionalProp, ht.optional_eq_of_union hx hy hform hunion]
    exact iff_of_true rfl (.inl hunion)
  · have hshown : ∀ {id}, id < b.table.size → b.table.form id = b.table.form y →
        (b.table.optional id).2.display ((b.table.optional id).2.declared id) =
          b.table.display (b.table.declared id) := by
      intro id hid heq
      exact hb.display_declared_eq (ht.widened_optional hid (heq ▸ hnull) (heq ▸ hnever)).grows hid
    rw [ht.optionalProp_of_not_union hy hunion hnull hnever hpending hobject hempty (hshown hy rfl)]
    have hsame := hshown hx hform
    rw [← hform] at hunion hnull hnever hpending hobject hempty ⊢
    rw [ht.optionalProp_of_not_union hx hunion hnull hnever hpending hobject hempty hsame,
      Option.some_inj, PropDefinition.elim_label_inj, or_iff_right hunion]

end Bindings.Sound

end PropSchema
