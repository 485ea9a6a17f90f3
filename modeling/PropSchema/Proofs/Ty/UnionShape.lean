import Mathlib.Data.List.Basic
import PropSchema.Proofs.Ty.Union

namespace PropSchema

def UnionShape.Alike : UnionShape → UnionShape → Prop
  | .mixed variants, .mixed variants' => variants.Perm variants'
  | shape, shape' => shape = shape'

theorem Form.rank?_le {f : Form} {rank : Nat} (h : f.rank? = some rank) : rank ≤ 12 := by
  revert h
  fun_cases Form.rank? f <;> grind

namespace TypeTable

variable {t : TypeTable} {parts parts' : List TypeId} {id : TypeId} {shape : UnionShape}

def optionTexts (t : TypeTable) (parts : List TypeId) : List String :=
  (parts.map t.optionText).filter (! ·.isEmpty)

def sortedOptions (t : TypeTable) (parts : List TypeId) : List String :=
  (t.optionTexts parts).mergeSort fun a b => decide (a ≤ b)

def sortedByRank (t : TypeTable) (parts : List TypeId) : List TypeId :=
  parts.mergeSort fun a b => decide (t.variantRank a ≤ t.variantRank b)

structure IsBoolean (t : TypeTable) (parts : List TypeId) : Prop where
  two : parts.length = 2
  literal : ∀ v ∈ parts, (t.form v).isBooleanLiteral
  yes : "true" ∈ parts.map t.optionText
  no : "false" ∈ parts.map t.optionText

/-- How the parts that are neither `undefined` nor `null` decide the shape of their union. -/
inductive HasShape (t : TypeTable) (parts : List TypeId) : UnionShape → Prop
  | boolean : (∀ v ∈ parts, (t.form v).isLiteral) → t.IsBoolean parts → HasShape t parts .boolean
  | literals : parts ≠ [] → (∀ v ∈ parts, (t.form v).isLiteral) → ¬ t.IsBoolean parts →
    HasShape t parts (.literals (t.sortedOptions parts))
  | single {v : TypeId} : parts = [v] → ¬ (t.form v).isLiteral → HasShape t parts (.single v)
  | mixed : (parts ≠ [] → ∃ v ∈ parts, ¬ (t.form v).isLiteral) → parts.length ≠ 1 →
    HasShape t parts (.mixed (t.sortedByRank parts))

theorem exists_hasShape (t : TypeTable) (parts : List TypeId) :
    ∃ shape, t.HasShape parts shape := by
  by_cases hnil : parts = []
  · exact ⟨_, .mixed (absurd hnil) (by simp [hnil])⟩
  by_cases hall : ∀ v ∈ parts, (t.form v).isLiteral
  · by_cases hbool : t.IsBoolean parts
    · exact ⟨_, .boolean hall hbool⟩
    · exact ⟨_, .literals hnil hall hbool⟩
  have hother : ∃ v ∈ parts, ¬ (t.form v).isLiteral := by simpa using hall
  by_cases hone : parts.length = 1
  · obtain ⟨v, rfl⟩ := List.length_eq_one_iff.1 hone
    exact ⟨_, .single rfl (by simpa using hall)⟩
  · exact ⟨_, .mixed (fun _ => hother) hone⟩

theorem isBoolean_iff :
    (parts.length == 2 && parts.all (fun v => (t.form v).isBooleanLiteral) &&
      (parts.map t.optionText).contains "true" &&
      (parts.map t.optionText).contains "false") = true ↔
      t.IsBoolean parts := by
  simp only [Bool.and_eq_true, beq_iff_eq, List.all_eq_true, List.contains_iff_mem]
  exact ⟨fun h => ⟨h.1.1.1, h.1.1.2, h.1.2, h.2⟩, fun h => ⟨⟨⟨h.two, h.literal⟩, h.yes⟩, h.no⟩⟩

instance : Decidable (t.IsBoolean parts) := decidable_of_iff _ isBoolean_iff

theorem unionShape_of_literal_parts (hparts : t.present (t.variants id) = parts) (hnil : parts ≠ [])
    (hall : ∀ v ∈ parts, (t.form v).isLiteral) :
    t.unionShape id =
      if t.IsBoolean parts then .boolean else .literals (t.sortedOptions parts) := by
  have hliterals : parts.filter (fun v => (t.form v).isLiteral) = parts :=
    List.filter_eq_self.2 hall
  have hothers : parts.filter (not ∘ fun v => (t.form v).isLiteral) = [] := by
    simpa [List.filter_eq_nil_iff] using hall
  rw [present] at hparts
  simp only [unionShape, List.partition_eq_filter_filter, hparts, hliterals, hothers]
  rw [if_pos (by simpa using hnil)]
  simp only [isBoolean_iff]
  rfl

theorem HasShape.unionShape_eq (h : t.HasShape (t.present (t.variants id)) shape) :
    t.unionShape id = shape := by
  generalize hparts : t.present (t.variants id) = parts at h
  cases h with
  | boolean hall hbool =>
    have hnil : parts ≠ [] := List.ne_nil_of_length_eq_add_one hbool.two
    rw [unionShape_of_literal_parts hparts hnil hall, if_pos hbool]
  | literals hnil hall hbool => rw [unionShape_of_literal_parts hparts hnil hall, if_neg hbool]
  | single hone hother =>
    subst hone
    rw [present] at hparts
    simp [unionShape, hparts, hother]
  | mixed hother hone =>
    rw [present] at hparts
    simp only [unionShape, List.partition_eq_filter_filter, hparts]
    rw [if_neg]
    · split
      · next one hliterals hothers =>
        have hlen := List.length_eq_length_filter_add (l := parts) fun v => (t.form v).isLiteral
        rw [hliterals,
          show parts.filter (fun v => ! (t.form v).isLiteral) = [one] from hothers] at hlen
        exact absurd hlen hone
      · rfl
    · simp only [Bool.and_eq_true, Bool.not_eq_true', List.isEmpty_eq_false_iff, List.isEmpty_iff]
      rintro ⟨hliterals, hothers⟩
      obtain ⟨v, hv, hnot⟩ := hother (fun hnil => hliterals (by rw [hnil, List.filter_nil]))
      simpa [hnot] using List.filter_eq_nil_iff.1 hothers v hv

theorem hasShape_unionShape (t : TypeTable) (id : TypeId) :
    t.HasShape (t.present (t.variants id)) (t.unionShape id) := by
  obtain ⟨shape, h⟩ := t.exists_hasShape (t.present (t.variants id))
  exact h.unionShape_eq ▸ h

theorem IsBoolean.perm (h : t.IsBoolean parts) (hperm : parts.Perm parts') :
    t.IsBoolean parts' where
  two := hperm.length_eq ▸ h.two
  literal v hv := h.literal v (hperm.mem_iff.2 hv)
  yes := (hperm.map _).mem_iff.1 h.yes
  no := (hperm.map _).mem_iff.1 h.no

theorem optionTexts_perm (hperm : parts.Perm parts') :
    (t.optionTexts parts).Perm (t.optionTexts parts') :=
  (hperm.map _).filter _

theorem sortedOptions_perm (t : TypeTable) (parts : List TypeId) :
    (t.sortedOptions parts).Perm (t.optionTexts parts) :=
  List.mergeSort_perm _ _

theorem pairwise_sortedOptions (t : TypeTable) (parts : List TypeId) :
    (t.sortedOptions parts).Pairwise (· ≤ ·) := by
  refine (List.pairwise_mergeSort ?_ ?_ _).imp of_decide_eq_true
  · intro a b c hab hbc
    exact decide_eq_true (String.le_trans (of_decide_eq_true hab) (of_decide_eq_true hbc))
  · intro a b
    simpa using String.le_total a b

theorem sortedOptions_eq_of_perm (hperm : parts.Perm parts') :
    t.sortedOptions parts = t.sortedOptions parts' := by
  have hsame : (t.sortedOptions parts).Perm (t.sortedOptions parts') :=
    (t.sortedOptions_perm parts).trans
      ((optionTexts_perm hperm).trans (t.sortedOptions_perm parts').symm)
  exact hsame.eq_of_pairwise (fun _ _ _ _ => String.le_antisymm) (t.pairwise_sortedOptions parts)
    (t.pairwise_sortedOptions parts')

theorem sortedByRank_perm (t : TypeTable) (parts : List TypeId) :
    (t.sortedByRank parts).Perm parts :=
  List.mergeSort_perm _ _

theorem HasShape.of_perm (h : t.HasShape parts shape) (hperm : parts.Perm parts') :
    ∃ shape', t.HasShape parts' shape' ∧ shape.Alike shape' := by
  have hnil : parts ≠ [] ↔ parts' ≠ [] := by
    rw [← List.length_pos_iff, ← List.length_pos_iff, hperm.length_eq]
  have hmem : ∀ {v}, v ∈ parts ↔ v ∈ parts' := hperm.mem_iff
  cases h with
  | boolean hall hbool =>
    exact ⟨_, .boolean (fun v hv => hall v (hmem.2 hv)) (hbool.perm hperm), rfl⟩
  | literals hne hall hbool =>
    refine ⟨_, .literals (hnil.1 hne) (fun v hv => hall v (hmem.2 hv)) ?_, ?_⟩
    · exact fun hbool' => hbool (hbool'.perm hperm.symm)
    · exact congrArg UnionShape.literals (sortedOptions_eq_of_perm hperm)
  | single hone hother =>
    subst hone
    exact ⟨_, .single (List.singleton_perm.1 hperm).symm hother, rfl⟩
  | mixed hother hone =>
    refine ⟨_, .mixed (fun hne => ?_) (hperm.length_eq ▸ hone), ?_⟩
    · obtain ⟨v, hv, hnot⟩ := hother (hnil.2 hne)
      exact ⟨v, hmem.1 hv, hnot⟩
    · exact (t.sortedByRank_perm parts).trans (hperm.trans (t.sortedByRank_perm parts').symm)

/-- The variants are the parts, those with a rank first and in ascending order of rank. Parts of
one rank, and those without a rank, keep their order. -/
structure InRankOrder (t : TypeTable) (parts variants : List TypeId) : Prop where
  perm : variants.Perm parts
  ascending : variants.Pairwise fun v w => ∀ rank, (t.form w).rank? = some rank →
    ∃ rank', (t.form v).rank? = some rank' ∧ rank' ≤ rank
  stable : ∀ rank, variants.filter (fun v => (t.form v).rank? = rank) =
    parts.filter fun v => (t.form v).rank? = rank

theorem variantRank_total (t : TypeTable) (v w : TypeId) :
    (decide (t.variantRank v ≤ t.variantRank w) || decide (t.variantRank w ≤ t.variantRank v)) =
      true := by
  simpa using Nat.le_total _ _

theorem variantRank_trans (t : TypeTable) (u v w : TypeId)
    (huv : decide (t.variantRank u ≤ t.variantRank v) = true)
    (hvw : decide (t.variantRank v ≤ t.variantRank w) = true) :
    decide (t.variantRank u ≤ t.variantRank w) = true :=
  decide_eq_true (Nat.le_trans (of_decide_eq_true huv) (of_decide_eq_true hvw))

theorem filter_sortedByRank (t : TypeTable) (parts : List TypeId) (rank : Option Nat) :
    (t.sortedByRank parts).filter (fun v => (t.form v).rank? = rank) =
      parts.filter fun v => (t.form v).rank? = rank := by
  have hequal : (parts.filter fun v => (t.form v).rank? = rank).Pairwise fun v w =>
      decide (t.variantRank v ≤ t.variantRank w) = true := by
    refine List.pairwise_of_forall_mem_list fun v hv w hw => ?_
    have hv' : (t.form v).rank? = rank := by simpa using (List.mem_filter.1 hv).2
    have hw' : (t.form w).rank? = rank := by simpa using (List.mem_filter.1 hw).2
    simp [variantRank, hv', hw']
  have hsub := (List.sublist_mergeSort t.variantRank_trans t.variantRank_total hequal
    List.filter_sublist).filter fun v => (t.form v).rank? = rank
  rw [List.filter_filter] at hsub
  simp only [Bool.and_self] at hsub
  exact (hsub.eq_of_length ((t.sortedByRank_perm parts).filter _).length_eq.symm).symm

theorem inRankOrder_sortedByRank (t : TypeTable) (parts : List TypeId) :
    t.InRankOrder parts (t.sortedByRank parts) := by
  refine ⟨t.sortedByRank_perm parts, ?_, t.filter_sortedByRank parts⟩
  refine (List.pairwise_mergeSort t.variantRank_trans t.variantRank_total parts).imp ?_
  intro v w hle rank hrank
  have hle' : t.variantRank v ≤ rank := by simpa [variantRank, hrank] using hle
  have hlow : rank ≤ 12 := Form.rank?_le hrank
  cases hv : (t.form v).rank? with
  | none =>
    have hlast : t.variantRank v = 255 := by rw [variantRank, hv]; rfl
    omega
  | some rank' => exact ⟨rank', rfl, by simpa [variantRank, hv] using hle'⟩

theorem eq_sortedOptions {options : List String} (h : t.unionShape id = .literals options) :
    options = t.sortedOptions (t.present (t.variants id)) := by
  have hshape := t.hasShape_unionShape id
  rw [h] at hshape
  cases hshape
  rfl

theorem eq_sortedByRank {variants : List TypeId} (h : t.unionShape id = .mixed variants) :
    variants = t.sortedByRank (t.present (t.variants id)) := by
  have hshape := t.hasShape_unionShape id
  rw [h] at hshape
  cases hshape
  rfl

/-- The parts that are present decide the shape, whatever their order is, and none of them is lost:
options are the texts of the literals, variants the parts themselves. -/
theorem unionShape_of_parts (t : TypeTable) :
    (∀ a shape, t.unionShape a = shape ↔ t.HasShape (t.present (t.variants a)) shape) ∧
    (∀ a b, (t.present (t.variants a)).Perm (t.present (t.variants b)) →
      (t.unionShape a).Alike (t.unionShape b)) ∧
    (∀ a options, t.unionShape a = .literals options →
      options.Pairwise (· ≤ ·) ∧ options.Perm (t.optionTexts (t.present (t.variants a)))) ∧
    ∀ a variants, t.unionShape a = .mixed variants →
      t.InRankOrder (t.present (t.variants a)) variants := by
  refine ⟨fun a shape => ?_, fun a b hperm => ?_, fun a options h => ?_, fun a variants h => ?_⟩
  · exact ⟨fun h => h ▸ t.hasShape_unionShape a, HasShape.unionShape_eq⟩
  · obtain ⟨shape, hshape, halike⟩ := (t.hasShape_unionShape a).of_perm hperm
    exact hshape.unionShape_eq ▸ halike
  · rw [eq_sortedOptions h]
    exact ⟨t.pairwise_sortedOptions _, t.sortedOptions_perm _⟩
  · rw [eq_sortedByRank h]
    exact t.inRankOrder_sortedByRank _

def widths : TypeTable where
  entries := #[⟨.primitive .number, none⟩, ⟨.stringLiteral "auto", none⟩,
    ⟨.primitive .undefined, none⟩, ⟨.primitive .null, none⟩, ⟨.union [0, 1, 2], none⟩,
    ⟨.union [1, 3, 0], none⟩, ⟨.stringLiteral "fit", none⟩, ⟨.union [6, 1], none⟩,
    ⟨.booleanLiteral true, none⟩, ⟨.booleanLiteral false, none⟩, ⟨.union [8, 3, 9], none⟩,
    ⟨.union [2, 0], none⟩]

theorem unionShape_of_parts_widths :
    (widths.present (widths.variants 4)).Perm (widths.present (widths.variants 5)) ∧
      (widths.unionShape 4).Alike (widths.unionShape 5) ∧ widths.unionShape 4 = .mixed [0, 1] ∧
      widths.unionShape 7 = .literals ["auto", "fit"] ∧ widths.unionShape 10 = .boolean ∧
      widths.unionShape 11 = .single 0 := by
  obtain ⟨hshape, halike, hliterals, -⟩ := unionShape_of_parts widths
  have hperm : (widths.present (widths.variants 4)).Perm (widths.present (widths.variants 5)) := by
    decide
  have hmixed : widths.sortedByRank [0, 1] = [0, 1] := List.mergeSort_of_pairwise (by decide)
  have hchoice : widths.unionShape 7 = .literals (widths.sortedOptions [6, 1]) :=
    (hshape 7 _).2 (.literals (by decide) (by decide) (by decide))
  obtain ⟨hascending, htexts⟩ := hliterals 7 _ hchoice
  have hoptions : widths.sortedOptions [6, 1] = ["auto", "fit"] :=
    (htexts.trans (by decide)).eq_of_pairwise (fun _ _ _ _ => String.le_antisymm) hascending
      (by decide)
  refine ⟨hperm, halike 4 5 hperm, ?_, hoptions ▸ hchoice, (hshape 10 _).2 (.boolean ?_ ?_),
    (hshape 11 _).2 (.single rfl ?_)⟩
  · exact (hshape 4 _).2 (hmixed ▸ .mixed (by decide) (by decide))
  all_goals decide

end TypeTable

end PropSchema
