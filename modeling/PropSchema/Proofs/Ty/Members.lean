import Mathlib.Data.List.Basic
import PropSchema.Proofs.Ty.Union

namespace PropSchema

theorem mergeMembers_cons (own : List Member) (m : Member) (extra : List Member) :
    mergeMembers own (m :: extra) =
      mergeMembers (if own.any (·.name == m.name) then own else own ++ [m]) extra := rfl

theorem any_name_eq {ms : List Member} {name : String} :
    ms.any (·.name == name) = true ↔ name ∈ ms.map (·.name) := by
  simp only [List.any_eq_true, beq_iff_eq, List.mem_map]

theorem exists_mergeMembers_eq (own extra : List Member) :
    ∃ rest, mergeMembers own extra = own ++ rest ∧
      rest.map (·.name) = ((extra.map (·.name)).filter (· ∉ own.map (·.name))).eraseDups := by
  induction extra generalizing own with
  | nil => exact ⟨[], by simp [mergeMembers], rfl⟩
  | cons m extra ih =>
    rw [mergeMembers_cons, List.map_cons]
    by_cases hm : m.name ∈ own.map (·.name)
    · obtain ⟨rest, hrest, hnames⟩ := ih own
      refine ⟨rest, by rw [if_pos (any_name_eq.2 hm), hrest], ?_⟩
      rw [hnames, List.filter_cons_of_neg (by simpa using hm)]
    · obtain ⟨rest, hrest, hnames⟩ := ih (own ++ [m])
      refine ⟨m :: rest, ?_, ?_⟩
      · rw [if_neg (mt any_name_eq.1 hm), hrest, List.append_assoc]
        rfl
      · rw [List.map_cons, hnames, List.filter_cons_of_pos (by simpa using hm),
          List.eraseDups_cons, List.filter_filter]
        congr 2
        apply List.filter_congr
        intro name _
        rw [Bool.eq_iff_iff]
        simp [and_comm]

theorem names_mergeMembers (ms : List Member) :
    (mergeMembers [] ms).map (·.name) = (ms.map (·.name)).eraseDups := by
  obtain ⟨rest, hrest, hnames⟩ := exists_mergeMembers_eq [] ms
  rw [hrest, List.nil_append, hnames]
  simp

theorem find?_of_mem_mergeMembers {own : List Member}
    (hown : ∀ m ∈ own, own.find? (·.name == m.name) = some m) (extra : List Member) :
    ∀ m ∈ mergeMembers own extra, (own ++ extra).find? (·.name == m.name) = some m := by
  induction extra generalizing own with
  | nil => simpa [mergeMembers] using hown
  | cons x extra ih =>
    intro m hm
    rw [mergeMembers_cons] at hm
    by_cases hx : own.any (·.name == x.name)
    · rw [if_pos hx] at hm
      have hfind := ih hown m hm
      rw [List.find?_append] at hfind ⊢
      cases hfirst : own.find? (·.name == m.name) with
      | some first => rwa [hfirst] at hfind
      | none =>
        -- The name is not in `own`, so it is not that of `x` either.
        have hne : (x.name == m.name) = false := by
          apply beq_false_of_ne
          intro heq
          obtain ⟨o, ho, hname⟩ := List.mem_map.1 (any_name_eq.1 hx)
          have := List.find?_eq_none.1 hfirst o ho
          simp [hname, heq] at this
        rw [hfirst] at hfind
        simpa [List.find?_cons, hne] using hfind
    · rw [if_neg hx] at hm
      have hstart : ∀ m ∈ own ++ [x], (own ++ [x]).find? (·.name == m.name) = some m := by
        intro m hm
        rw [List.find?_append]
        obtain hm | hm := List.mem_append.1 hm
        · rw [hown m hm]
          rfl
        · obtain rfl := List.mem_singleton.1 hm
          have hnone : own.find? (·.name == m.name) = none := by
            apply List.find?_eq_none.2
            intro o ho hname
            exact hx (List.any_eq_true.2 ⟨o, ho, hname⟩)
          simp [hnone]
      have hfind := ih hstart m hm
      rwa [List.append_assoc] at hfind

def Form.parts : Form → List TypeId
  | .union parts => parts
  | .intersection parts => parts
  | _ => []

namespace TypeTable

variable {t : TypeTable} {id : TypeId} {f : Form} {parts : List TypeId}

def NestsWithin (t : TypeTable) : Nat → TypeId → Prop
  | 0, id => (t.form id).parts = []
  | levels + 1, id => ∀ part ∈ (t.form id).parts, t.NestsWithin levels part

instance decidableNestsWithin (t : TypeTable) :
    (levels : Nat) → (id : TypeId) → Decidable (t.NestsWithin levels id)
  | 0, id => inferInstanceAs (Decidable ((t.form id).parts = []))
  | levels + 1, id =>
    have := decidableNestsWithin t levels
    inferInstanceAs (Decidable (∀ part ∈ (t.form id).parts, t.NestsWithin levels part))

theorem formMembers_congr {members members' : TypeId → List Member}
    (h : ∀ part ∈ f.parts, members part = members' part) :
    formMembers members f = formMembers members' f := by
  cases f with
  | intersection parts =>
    exact List.foldl_ext _ _ _ fun acc part hpart => by rw [h part hpart]
  | union parts =>
    cases parts with
    | nil => rfl
    | cons first rest =>
      have hrest : rest.map members = rest.map members' :=
        List.map_congr_left fun part hpart => h part (List.mem_cons_of_mem first hpart)
      simp only [formMembers, hrest, h first List.mem_cons_self]
  | _ => rfl

theorem membersAt_eq {nesting levels levels' : Nat} (h : t.NestsWithin nesting id)
    (hlevels : nesting < levels) (hlevels' : nesting < levels') :
    t.membersAt levels id = t.membersAt levels' id := by
  induction levels generalizing id nesting levels' with
  | zero => cases hlevels
  | succ levels ih =>
    cases levels' with
    | zero => cases hlevels'
    | succ levels' =>
      apply formMembers_congr
      intro part hpart
      cases nesting with
      | zero =>
        rw [show (t.form id).parts = [] from h] at hpart
        cases hpart
      | succ nesting =>
        exact ih (h part hpart) (Nat.lt_of_succ_lt_succ hlevels) (Nat.lt_of_succ_lt_succ hlevels')

theorem members_eq_formMembers (hform : t.form id = f)
    (h : ∀ part ∈ f.parts, t.NestsWithin 31 part) : t.members id = formMembers t.members f := by
  rw [members, memberLevels, membersAt, hform]
  exact formMembers_congr fun part hpart => membersAt_eq (h part hpart) (by omega) (by decide)

theorem members_intersection (hform : t.form id = .intersection parts)
    (h : ∀ part ∈ parts, t.NestsWithin 31 part) :
    t.members id = mergeMembers [] (parts.flatMap t.members) := by
  have hfold : ∀ own : List Member,
      parts.foldl (fun acc part => mergeMembers acc (t.members part)) own =
        mergeMembers own (parts.flatMap t.members) := by
    intro own
    rw [List.flatMap_def, mergeMembers, List.foldl_flatten, List.foldl_map]
    rfl
  rw [members_eq_formMembers hform h]
  exact hfold []

theorem members_union {first : TypeId} {rest : List TypeId}
    (hform : t.form id = .union (first :: rest))
    (h : ∀ part ∈ first :: rest, t.NestsWithin 31 part) :
    t.members id = (t.members first).filter fun m =>
      rest.all fun part => (t.members part).any (·.name == m.name) := by
  rw [members_eq_formMembers hform h, formMembers]
  simp only [List.all_map]
  rfl

def memberNames (t : TypeTable) (ty : TypeId) : List String := (t.members ty).map (·.name)

theorem mem_memberNames_union (hform : t.form id = .union parts) (hne : parts ≠ [])
    (h : ∀ part ∈ parts, t.NestsWithin 31 part) {name : String} :
    name ∈ t.memberNames id ↔ ∀ part ∈ parts, name ∈ t.memberNames part := by
  cases parts with
  | nil => exact absurd rfl hne
  | cons first rest =>
    rw [List.forall_mem_cons, memberNames, members_union hform h]
    simp only [List.mem_map, List.mem_filter, List.all_eq_true, any_name_eq, memberNames]
    constructor
    · rintro ⟨m, ⟨hm, hrest⟩, rfl⟩
      exact ⟨⟨m, hm, rfl⟩, hrest⟩
    · rintro ⟨⟨m, hm, rfl⟩, hrest⟩
      exact ⟨m, ⟨hm, hrest⟩, rfl⟩

/-- The names of an intersection are those of its parts, each once and where it first occurs; the
member of a name is the first one that a part has under it. A union has the members of its first
part whose names all other parts have too, so the order of the parts does not matter for the names.
Only types that are nested more than 31 levels deep in a part may be missed. -/
theorem memberNames_of_parts (t : TypeTable) :
    (∀ id parts, t.form id = .intersection parts → (∀ part ∈ parts, t.NestsWithin 31 part) →
      (t.memberNames id).Nodup ∧
      t.memberNames id = (parts.flatMap t.memberNames).eraseDups ∧
      ∀ m ∈ t.members id, (parts.flatMap t.members).find? (·.name == m.name) = some m) ∧
    ∀ id first rest, t.form id = .union (first :: rest) →
      (∀ part ∈ first :: rest, t.NestsWithin 31 part) →
      (t.members id = (t.members first).filter fun m =>
        rest.all fun part => (t.memberNames part).contains m.name) ∧
      ∀ id' parts, t.form id' = .union parts → parts.Perm (first :: rest) →
        ∀ name, name ∈ t.memberNames id' ↔ name ∈ t.memberNames id := by
  refine ⟨fun id parts hform h => ?_, fun id first rest hform h => ⟨?_, ?_⟩⟩
  · have hnames : t.memberNames id = (parts.flatMap t.memberNames).eraseDups := by
      rw [memberNames, members_intersection hform h, names_mergeMembers, List.map_flatMap]
      rfl
    refine ⟨hnames ▸ nodup_eraseDups _, hnames, ?_⟩
    rw [members_intersection hform h]
    have hnil : ∀ m ∈ ([] : List Member), [].find? (·.name == m.name) = some m :=
      fun m hm => absurd hm List.not_mem_nil
    exact find?_of_mem_mergeMembers hnil _
  · rw [members_union hform h]
    refine List.filter_congr fun m _ => ?_
    congr 1
    funext part
    rw [Bool.eq_iff_iff, any_name_eq, List.contains_iff_mem, memberNames]
  · intro id' parts hform' hperm name
    have h' : ∀ part ∈ parts, t.NestsWithin 31 part :=
      fun part hpart => h part (hperm.mem_iff.1 hpart)
    have hne : parts ≠ [] := fun hnil => by
      rw [hnil] at hperm
      exact absurd hperm.symm.eq_nil (List.cons_ne_nil _ _)
    rw [mem_memberNames_union hform' hne h', mem_memberNames_union hform (List.cons_ne_nil _ _) h]
    exact forall_congr' fun part => imp_congr_left hperm.mem_iff

def cards : TypeTable where
  entries := #[
    ⟨.primitive .string, none⟩,
    ⟨.object ⟨some "Item", [⟨"id", 0, 0, false, none⟩, ⟨"label", 0, 0, false, none⟩], []⟩, none⟩,
    ⟨.object ⟨some "Card", [⟨"title", 0, 0, false, none⟩, ⟨"id", 0, 0, true, none⟩], []⟩, none⟩,
    ⟨.intersection [1, 2], none⟩,
    ⟨.union [1, 2], none⟩,
    ⟨.union [2, 1], none⟩]

theorem memberNames_cards :
    cards.memberNames 3 = ["id", "label", "title"] ∧
      cards.members 3 = cards.members 1 ++ [⟨"title", 0, 0, false, none⟩] ∧
      cards.members 4 = [⟨"id", 0, 0, false, none⟩] ∧
      ∀ name, name ∈ cards.memberNames 5 ↔ name ∈ cards.memberNames 4 := by
  have hnests : ∀ part ∈ [1, 2], cards.NestsWithin 31 part := by decide
  obtain ⟨-, hnames, -⟩ := (memberNames_of_parts cards).1 3 [1, 2] rfl hnests
  obtain ⟨hunion, horder⟩ := (memberNames_of_parts cards).2 4 1 [2] rfl hnests
  refine ⟨?_, by decide, ?_, horder 5 [2, 1] rfl (by decide)⟩
  · rw [hnames]
    decide
  · rw [hunion]
    decide

end TypeTable

end PropSchema
