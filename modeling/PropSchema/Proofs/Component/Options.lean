import Mathlib.Data.List.Nodup
import Mathlib.Data.List.Perm.Subperm
import PropSchema.Proofs.Binding.Origins
import PropSchema.Proofs.Component.Arena
import PropSchema.Proofs.Tree.Lines
import PropSchema.Proofs.Ty.UnionShape

namespace PropSchema

theorem Form.eq_of_isBooleanLiteral {f : Form} (h : f.isBooleanLiteral) :
    ∃ value, f = .booleanLiteral value := by
  cases f with
  | booleanLiteral value => exact ⟨value, rfl⟩
  | _ => cases h

namespace TypeTable

variable {t : TypeTable} {id : TypeId} {parts : List TypeId}

theorem nodup_optionTexts_iff (h : parts.Nodup) :
    (t.optionTexts parts).Nodup ↔ ∀ v ∈ parts, ∀ w ∈ parts,
      t.optionText v = t.optionText w → t.optionText v ≠ "" → v = w := by
  rw [optionTexts, List.filter_map, List.nodup_map_iff_inj_on (h.filter _)]
  simp only [List.mem_filter, Function.comp_apply, Bool.not_eq_true', String.isEmpty_eq_false_iff]
  constructor
  · intro hinj v hv w hw heq hne
    exact hinj v ⟨hv, hne⟩ w ⟨hw, heq ▸ hne⟩ heq
  · intro hinj v hv w hw heq
    exact hinj v hv.1 w hw.1 heq hv.2

section Booleans

variable (hboolean : ∀ v ∈ parts, (t.form v).isBooleanLiteral)
  (hboth : ∀ value, ∃ v ∈ parts, t.form v = .booleanLiteral value)

include hboolean hboth

theorem length_eq_two_iff (h : parts.Nodup) :
    parts.length = 2 ↔ ∀ v ∈ parts, ∀ w ∈ parts, t.form v = t.form w → v = w := by
  rw [← List.nodup_map_iff_inj_on h, ← List.length_map (f := t.form)]
  have hmem : ∀ f, f ∈ parts.map t.form ↔
      f ∈ [Form.booleanLiteral true, .booleanLiteral false] := by
    intro f
    constructor
    · intro hf
      obtain ⟨v, hv, rfl⟩ := List.mem_map.1 hf
      obtain ⟨value, heq⟩ := Form.eq_of_isBooleanLiteral (hboolean v hv)
      rw [heq]
      cases value <;> simp
    · intro hf
      obtain ⟨value, rfl⟩ : ∃ value, f = .booleanLiteral value := by
        obtain rfl | rfl : f = .booleanLiteral true ∨ f = .booleanLiteral false := by simpa using hf
        · exact ⟨true, rfl⟩
        · exact ⟨false, rfl⟩
      obtain ⟨v, hv, heq⟩ := hboth value
      exact heq ▸ List.mem_map_of_mem hv
  have hsub : [Form.booleanLiteral true, .booleanLiteral false].Subperm (parts.map t.form) :=
    List.subperm_of_subset (by decide) fun f hf => (hmem f).2 hf
  constructor
  · intro hlength
    exact (hsub.perm_of_length_le (by rw [hlength]; simp)).nodup_iff.1 (by decide)
  · intro hnodup
    exact ((List.perm_ext_iff_of_nodup hnodup (by decide)).2 hmem).length_eq

theorem isBoolean_iff_length : t.IsBoolean parts ↔ parts.length = 2 := by
  refine ⟨fun h => h.two, fun hlength => ⟨hlength, hboolean, ?_, ?_⟩⟩
  · obtain ⟨v, hv, hform⟩ := hboth true
    exact List.mem_map.2 ⟨v, hv, by rw [optionText, hform]; rfl⟩
  · obtain ⟨v, hv, hform⟩ := hboth false
    exact List.mem_map.2 ⟨v, hv, by rw [optionText, hform]; rfl⟩

theorem unionShape_eq_boolean_iff (hparts : t.present (t.variants id) = parts) :
    t.unionShape id = .boolean ↔ parts.length = 2 := by
  have hliteral : ∀ v ∈ parts, (t.form v).isLiteral := by
    intro v hv
    obtain ⟨value, heq⟩ := Form.eq_of_isBooleanLiteral (hboolean v hv)
    rw [heq]
    rfl
  obtain ⟨v, hv, -⟩ := hboth true
  rw [unionShape_of_literal_parts hparts (List.ne_nil_of_mem hv) hliteral,
    ← isBoolean_iff_length hboolean hboth]
  split
  · next h => exact iff_of_true rfl h
  · next h => exact iff_of_false UnionShape.noConfusion h

end Booleans

end TypeTable

def Origin.everywhere (P : Program) : Origin P where
  inside _ _ := True
  named _ := True
  has _ := trivial
  child _ _ := trivial
  nil := trivial
  objectType _ _ := trivial
  interface _ _ _ := trivial
  sublist _ _ := trivial
  append _ _ _ := trivial

namespace Program

variable {P : Program}

theorem isFrom_everywhere (requests : List P.Request) :
    (served requests).table.IsFrom (.everywhere P) := by
  have hyields := fun call => (Origin.everywhere P).yielding.perform call fun _ _ _ => trivial
  exact servedFrom_induction (fun b call hb => (hyields call b hb trivial).1) (.empty _) requests

theorem alias_of_same_literal (requests : List P.Request) {v w : TypeId}
    (hliteral : ((served requests).table.form v).isLiteral)
    (hform : (served requests).table.form v = (served requests).table.form w) (hne : v ≠ w) :
    ((served requests).table.alias? v).isSome ∨ ((served requests).table.alias? w).isSome := by
  have hinterned : ∀ {id}, ((served requests).table.form id).isLiteral →
      (served requests).table.alias? id = none →
      (served requests).table.interned.lookup ((served requests).table.form id) = some id := by
    intro id hid halias
    apply (isFrom_everywhere requests).literal id _ _ hid
    rw [TypeTable.form, TypeTable.formAt_of_alias_none halias, ← halias]
    rfl
  cases hv : (served requests).table.alias? v with
  | some a => exact .inl rfl
  | none =>
    cases hw : (served requests).table.alias? w with
    | some a => exact .inr rfl
    | none =>
      have hlookup := hinterned hliteral hv
      rw [hform, hinterned (hform ▸ hliteral) hw] at hlookup
      exact absurd (Option.some.inj hlookup).symm hne

theorem nodup_variants (requests : List P.Request) (id : TypeId) :
    ((served requests).table.variants id).Nodup := by
  have hsound : (served requests).Sound := sound_servedFrom .empty requests
  rw [TypeTable.variants]
  split
  · next parts hform =>
    have hproper := hsound.wellMade.proper_formAt TypeTable.aliasHops id
    rw [← TypeTable.form, hform] at hproper
    exact (hproper Form.noConfusion).1
  · exact List.nodup_nil

/-- The options of a union repeat exactly if two of its parts have the same text, and a union of
boolean literals with both values is a boolean exactly if neither value is there twice. If two parts
are the same literal, then one of them is an alias. -/
theorem options_nodup_iff (requests : List P.Request) (id : TypeId) :
    let t := (served requests).table
    let parts := t.present (t.variants id)
    (∀ options, t.unionShape id = .literals options →
      (options.Nodup ↔ ∀ v ∈ parts, ∀ w ∈ parts,
        t.optionText v = t.optionText w → t.optionText v ≠ "" → v = w)) ∧
    ((∀ v ∈ parts, (t.form v).isBooleanLiteral) →
      (∀ value, ∃ v ∈ parts, t.form v = .booleanLiteral value) →
      (t.unionShape id = .boolean ↔ ∀ v ∈ parts, ∀ w ∈ parts, t.form v = t.form w → v = w)) ∧
    ∀ v w, (t.form v).isLiteral → t.form v = t.form w → v ≠ w →
      (t.alias? v).isSome ∨ (t.alias? w).isSome := by
  intro t parts
  have hnodup : parts.Nodup := (nodup_variants requests id).filter _
  refine ⟨fun options hshape => ?_, fun hboolean hboth => ?_,
    fun v w => alias_of_same_literal requests⟩
  · rw [TypeTable.eq_sortedOptions hshape, (t.sortedOptions_perm _).nodup_iff]
    exact TypeTable.nodup_optionTexts_iff hnodup
  · rw [← TypeTable.length_eq_two_iff hboolean hboth hnodup]
    exact TypeTable.unionShape_eq_boolean_iff hboolean hboth rfl

def letters : Program :=
  let letter : SourceLine := ⟨1, 0, 1⟩
  let both : SourceLine := ⟨10, 18, 2⟩
  let size : SourceLine := ⟨22, 43, 3⟩
  let yes : SourceLine := ⟨38, 65, 4⟩
  let flag : SourceLine := ⟨44, 81, 5⟩
  let isOpen : SourceLine := ⟨53, 107, 6⟩
  ofLines ⟨"src/types.ts"⟩ [
    letter.typeAlias "Letter" (letter.stringType 4 (some .value) 14 "a"),
    both.typeAlias "Both" <| both.unionType 4 10 (some .value) 12
      (both.stringType 5 none 12 "a") (both.typeName 11 none 18 "Letter"),
    size.typeAlias "Size" <| size.unionType 4 10 (some .value) 12
      (size.stringType 5 none 12 "a") (size.stringType 11 none 18 "b"),
    yes.typeAlias "Yes" (yes.node 4 .literalType true (some .value) 11 "true" [
      yes.node 5 .true true none 11 "true" []]),
    flag.typeAlias "Flag" <| flag.unionType 4 7 (some .value) 12
      (flag.keywordType 5 none 12 "boolean") (flag.typeName 8 none 22 "Yes"),
    isOpen.typeAlias "Open" (isOpen.keywordType 4 (some .value) 12 "boolean")]

def lettersRequests : List letters.Request := letters.requestsFor 0 ["Both", "Flag", "Size", "Open"]

theorem options_of_size_and_open :
    let t := (served lettersRequests).table
    (∃ options, t.unionShape 10 = .literals options ∧ options.Nodup) ∧
      t.unionShape 13 = .boolean := by
  intro t
  have hsize : t.present (t.variants 10) = [1, 11] := by decide +kernel
  have hopen : t.present (t.variants 13) = [5, 6] := by decide +kernel
  have hliteral : ∀ v ∈ [1, 11], (t.form v).isLiteral := by decide +kernel
  have hboolean : ¬ t.IsBoolean [1, 11] := by decide +kernel
  have htexts : ∀ v ∈ [1, 11], ∀ w ∈ [1, 11], t.optionText v = t.optionText w →
      t.optionText v ≠ "" → v = w := by
    decide +kernel
  have hvalues : ∀ v ∈ [5, 6], (t.form v).isBooleanLiteral := by decide +kernel
  have hboth : ∀ value, ∃ v ∈ [5, 6], t.form v = .booleanLiteral value := by decide +kernel
  have hforms : ∀ v ∈ [5, 6], ∀ w ∈ [5, 6], t.form v = t.form w → v = w := by decide +kernel
  have hshape := TypeTable.unionShape_of_literal_parts hsize (List.cons_ne_nil _ _) hliteral
  rw [if_neg hboolean] at hshape
  have hnodup := (options_nodup_iff lettersRequests 10).1 _ hshape
  have hiff := (options_nodup_iff lettersRequests 13).2.1
  rw [show TypeTable.present _ _ = _ from hsize] at hnodup
  rw [show TypeTable.present _ _ = _ from hopen] at hiff
  exact ⟨⟨_, hshape, hnodup.2 htexts⟩, (hiff hvalues hboth).2 hforms⟩

/-- A literal beside its alias is an option twice, and a boolean beside an alias of one of its
values is no boolean. -/
theorem alias_repeats_option :
    let t := (served lettersRequests).table
    t.unionShape 0 = .literals ["a", "a"] ∧
      (∀ v ∈ t.present (t.variants 4), (t.form v).isBooleanLiteral) ∧
      t.unionShape 4 = .literals ["false", "true", "true"] := by
  intro t
  have hshape : ∀ {id parts options}, t.present (t.variants id) = parts → parts ≠ [] →
      (∀ v ∈ parts, (t.form v).isLiteral) → ¬ t.IsBoolean parts → t.optionTexts parts = options →
      options.Pairwise (fun a b => decide (a ≤ b)) → t.unionShape id = .literals options := by
    intro id parts options hparts hnil hliteral hboolean htexts hsorted
    rw [TypeTable.unionShape_of_literal_parts hparts hnil hliteral, if_neg hboolean,
      TypeTable.sortedOptions, htexts, List.mergeSort_of_pairwise hsorted]
  have hboth : t.present (t.variants 0) = [1, 2] := by decide +kernel
  have hflag : t.present (t.variants 4) = [5, 6, 8] := by decide +kernel
  refine ⟨hshape hboth (by decide) ?_ ?_ ?_ ?_, ?_, hshape hflag (by decide) ?_ ?_ ?_ ?_⟩
  all_goals decide +kernel

end Program

end PropSchema
