import Mathlib.Data.List.Basic
import PropSchema.Text.Affix

namespace PropSchema.Text

theorem dropPrefix?_eq_some_iff {lead text rest : String} :
    dropPrefix? lead text = some rest ↔ text = lead ++ rest := by
  simp only [dropPrefix?, Option.map_eq_some_iff, List.isPrefixOf?_eq_some_iff_append_eq]
  constructor
  · rintro ⟨chars, h, rfl⟩
    exact String.ext (by simp [← h])
  · rintro rfl
    exact ⟨rest.toList, String.toList_append.symm, String.ofList_toList⟩

theorem dropSuffix?_eq_some_iff {tail text rest : String} :
    dropSuffix? tail text = some rest ↔ text = rest ++ tail := by
  simp only [dropSuffix?, Option.map_eq_some_iff, List.isSuffixOf?_eq_some_iff_append_eq]
  constructor
  · rintro ⟨chars, h, rfl⟩
    exact String.ext (by simp [← h])
  · rintro rfl
    exact ⟨rest.toList, String.toList_append.symm, String.ofList_toList⟩

theorem startsWith_iff {lead text : String} :
    startsWith lead text = true ↔ ∃ rest, text = lead ++ rest := by
  simp only [startsWith, Option.isSome_iff_exists, dropPrefix?_eq_some_iff]

theorem endsWith_iff {tail text : String} :
    endsWith tail text = true ↔ ∃ rest, text = rest ++ tail := by
  simp only [endsWith, Option.isSome_iff_exists, dropSuffix?_eq_some_iff]

theorem exists_eq_append_append_iff {lead tail text : String} :
    (∃ middle, text = lead ++ middle ++ tail) ↔
      startsWith lead text ∧ endsWith tail text ∧ lead.length + tail.length ≤ text.length := by
  rw [startsWith_iff, endsWith_iff]
  constructor
  · rintro ⟨middle, rfl⟩
    refine ⟨⟨middle ++ tail, String.append_assoc ..⟩, ⟨lead ++ middle, rfl⟩, ?_⟩
    simp only [String.length_append]
    omega
  · rintro ⟨⟨rest, hrest⟩, ⟨start, rfl⟩, hlength⟩
    have hshort : lead.toList.length ≤ start.toList.length := by
      rw [String.length_append] at hlength
      rw [String.length_toList, String.length_toList]
      omega
    have hlead : lead.toList <+: (start ++ tail).toList := ⟨rest.toList, by rw [hrest]; simp⟩
    have hstart : start.toList <+: (start ++ tail).toList := ⟨tail.toList, by simp⟩
    obtain ⟨middle, hmiddle⟩ := List.prefix_of_prefix_length_le hlead hstart hshort
    exact ⟨String.ofList middle, String.ext (by simp [← hmiddle])⟩

def Apart (sep mark : String) : Prop := ∀ c ∈ sep.toList, c ∉ mark.toList

section Lists

variable {mark l sep r : List Char}

theorem isPrefixOf?_append_cons {c : Char} (hc : c ∉ mark) :
    mark.isPrefixOf? (l ++ c :: r) = (mark.isPrefixOf? l).map (· ++ c :: r) := by
  induction mark generalizing l with
  | nil => rfl
  | cons a mark ih =>
    rw [List.mem_cons, not_or] at hc
    cases l with
    | nil => simp [List.isPrefixOf?, Ne.symm hc.1]
    | cons b l =>
      by_cases hab : a = b
      · simp [List.isPrefixOf?, hab, ih hc.2]
      · simp [List.isPrefixOf?, hab]

theorem cutList?_append_of_not_mem {m : Char} (h : m ∉ l) :
    cutList? (m :: mark) (l ++ r) =
      (cutList? (m :: mark) r).map fun cut => (l ++ cut.1, cut.2) := by
  induction l with
  | nil => simp
  | cons c l ih =>
    rw [List.mem_cons, not_or] at h
    have hnone : (m :: mark).isPrefixOf? (c :: (l ++ r)) = none := by simp [List.isPrefixOf?, h.1]
    rw [List.cons_append, cutList?, hnone, ih h.2, Option.map_map]
    rfl

theorem cutList?_append (hmark : mark ≠ []) (hne : sep ≠ []) (hsep : ∀ c ∈ sep, c ∉ mark) :
    cutList? mark (l ++ sep ++ r) =
      ((cutList? mark l).map fun cut => (cut.1, cut.2 ++ sep ++ r)).or
        ((cutList? mark r).map fun cut => (l ++ sep ++ cut.1, cut.2)) := by
  induction l with
  | nil =>
    obtain ⟨m, mark, rfl⟩ := List.exists_cons_of_ne_nil hmark
    rw [List.nil_append, cutList?_append_of_not_mem fun hm => hsep m hm List.mem_cons_self]
    rfl
  | cons a l ih =>
    obtain ⟨c, s, rfl⟩ := List.exists_cons_of_ne_nil hne
    have hlead : mark.isPrefixOf? (a :: (l ++ (c :: s) ++ r)) =
        (mark.isPrefixOf? (a :: l)).map (· ++ (c :: s) ++ r) := by
      have h := isPrefixOf?_append_cons (l := a :: l) (r := s ++ r) (hsep c List.mem_cons_self)
      simpa using h
    rw [List.cons_append, List.cons_append, cutList?, hlead, cutList?]
    cases mark.isPrefixOf? (a :: l) with
    | some after => rfl
    | none =>
      simp only [Option.map_none, ih]
      cases cutList? mark l with
      | some cut => rfl
      | none => cases cutList? mark r <;> simp

end Lists

variable {mark a sep b : String}

theorem startsWith_append (hne : sep ≠ "") (h : Apart sep mark) :
    startsWith mark (a ++ sep ++ b) = startsWith mark a := by
  obtain ⟨c, s, hs⟩ := List.exists_cons_of_ne_nil (by simpa using hne : sep.toList ≠ [])
  have hc : c ∉ mark.toList := h c (by simp [hs])
  have hlead := isPrefixOf?_append_cons (l := a.toList) (r := s ++ b.toList) hc
  simp [startsWith, dropPrefix?, hs, hlead]

theorem endsWith_iff_suffix {text : String} :
    endsWith mark text = true ↔ mark.toList <:+ text.toList := by
  simp [endsWith, dropSuffix?]

theorem endsWith_append (hne : sep ≠ "") (h : Apart sep mark) :
    endsWith mark (a ++ sep ++ b) = endsWith mark b := by
  obtain ⟨s, c, hs⟩ := List.eq_nil_or_concat sep.toList |>.resolve_left (by simpa using hne)
  have hc : c ∉ mark.toList := h c (by simp [hs])
  rw [Bool.eq_iff_iff, endsWith_iff_suffix, endsWith_iff_suffix]
  simp only [String.toList_append, hs]
  constructor
  · intro hmark
    have htail : c :: b.toList <:+ a.toList ++ s.concat c ++ b.toList := ⟨a.toList ++ s, by simp⟩
    obtain hle | hle := List.suffix_or_suffix_of_suffix hmark htail
    · obtain heq | hle := List.suffix_cons_iff.1 hle
      · exact absurd (heq ▸ List.mem_cons_self) hc
      · exact hle
    · exact absurd (hle.mem List.mem_cons_self) hc
  · intro hmark
    exact hmark.trans (List.suffix_append _ _)

theorem cut?_append (hmark : mark ≠ "") (hne : sep ≠ "") (h : Apart sep mark) :
    cut? mark (a ++ sep ++ b) =
      ((cut? mark a).map fun cut => (cut.1, cut.2 ++ sep ++ b)).or
        ((cut? mark b).map fun cut => (a ++ sep ++ cut.1, cut.2)) := by
  have hcut := cutList?_append (l := a.toList) (r := b.toList) (by simpa using hmark)
    (by simpa using hne) h
  simp only [cut?, String.toList_append, hcut]
  cases cutList? mark.toList a.toList with
  | some cut => simp [String.append_assoc]
  | none => cases cutList? mark.toList b.toList <;> simp [String.append_assoc]

theorem replaceFirst_of_cut_eq_none {text : String} (h : ¬ (cut? mark text).isSome)
    (replacement : String) : replaceFirst mark replacement text = text := by
  rw [replaceFirst, Option.not_isSome_iff_eq_none.1 h]

theorem replaceFirst_append (hmark : mark ≠ "") (hne : sep ≠ "") (h : Apart sep mark)
    (replacement : String) :
    replaceFirst mark replacement (a ++ sep ++ b) =
      if (cut? mark a).isSome then replaceFirst mark replacement a ++ sep ++ b
      else a ++ sep ++ replaceFirst mark replacement b := by
  simp only [replaceFirst, cut?_append hmark hne h]
  cases cut? mark a with
  | some cut => simp [String.append_assoc]
  | none => cases cut? mark b <;> simp [String.append_assoc]

theorem replaceFirst_append_of_not_mem {m : Char} {s : List Char} (hmark : mark.toList = m :: s)
    (h : m ∉ a.toList) (replacement : String) :
    replaceFirst mark replacement (a ++ b) = a ++ replaceFirst mark replacement b := by
  simp only [replaceFirst, cut?, String.toList_append, hmark, cutList?_append_of_not_mem h]
  cases cutList? (m :: s) b.toList <;> simp [String.append_assoc]

section SingleMark

variable {m : Char}

theorem cutList?_singleton_eq_some_iff {chars before after : List Char} :
    cutList? [m] chars = some (before, after) ↔ chars = before ++ m :: after ∧ m ∉ before := by
  induction chars generalizing before with
  | nil => simp [cutList?]
  | cons c chars ih =>
    by_cases hc : m = c
    · subst hc
      simp only [cutList?, List.isPrefixOf?, BEq.rfl, if_true, Option.some.injEq, Prod.mk.injEq]
      cases before with
      | nil => simp [eq_comm]
      | cons b before => simp +contextual [eq_comm]
    · have hnone : [m].isPrefixOf? (c :: chars) = none := by simp [List.isPrefixOf?, hc]
      simp only [cutList?, hnone, Option.map_eq_some_iff, Prod.exists, Prod.mk.injEq]
      cases before with
      | nil => simp [Ne.symm hc]
      | cons b before =>
        rw [List.cons_append, List.cons.injEq, List.mem_cons, not_or]
        constructor
        · rintro ⟨before', after', hcut, hcons, rfl⟩
          cases hcons
          obtain ⟨rfl, hbefore⟩ := ih.1 hcut
          exact ⟨⟨rfl, rfl⟩, hc, hbefore⟩
        · rintro ⟨⟨rfl, hchars⟩, -, hbefore⟩
          exact ⟨before, after, ih.2 ⟨hchars, hbefore⟩, rfl, rfl⟩

theorem cutList?_singleton_eq_none_iff {chars : List Char} :
    cutList? [m] chars = none ↔ m ∉ chars := by
  rw [← not_iff_not, not_not, ← Ne, Option.ne_none_iff_exists']
  constructor
  · rintro ⟨⟨before, after⟩, h⟩
    rw [(cutList?_singleton_eq_some_iff.1 h).1]
    simp
  · intro h
    obtain ⟨before, after, hchars, hbefore⟩ := List.eq_append_cons_of_mem h
    exact ⟨(before, after), cutList?_singleton_eq_some_iff.2 ⟨hchars, hbefore⟩⟩

variable {text before after : String} (hmark : mark.toList = [m])

include hmark

theorem cut?_eq_some_iff :
    cut? mark text = some (before, after) ↔ text = before ++ mark ++ after ∧ m ∉ before.toList := by
  simp only [cut?, hmark, Option.map_eq_some_iff, Prod.exists, Prod.mk.injEq,
    cutList?_singleton_eq_some_iff]
  constructor
  · rintro ⟨b, a, ⟨htext, hb⟩, rfl, rfl⟩
    exact ⟨String.ext (by simp [htext, hmark]), by simpa using hb⟩
  · rintro ⟨rfl, hb⟩
    exact ⟨before.toList, after.toList, ⟨by simp [hmark], hb⟩, String.ofList_toList,
      String.ofList_toList⟩

theorem cut?_eq_none_iff : cut? mark text = none ↔ m ∉ text.toList := by
  rw [cut?, Option.map_eq_none_iff, hmark, cutList?_singleton_eq_none_iff]

end SingleMark

section Lengths

variable {α : Type} {sep : String} {texts texts' : α → String} {l : List α}

theorem length_intercalate_le (h : ∀ x ∈ l, (texts x).length ≤ (texts' x).length) :
    (sep.intercalate (l.map texts)).length ≤ (sep.intercalate (l.map texts')).length := by
  induction l with
  | nil => exact Nat.le_refl _
  | cons x l ih =>
    rw [List.forall_mem_cons] at h
    by_cases hnil : l = []
    · simpa [hnil] using h.1
    · have hrest := ih h.2
      rw [List.map_cons, List.map_cons, String.intercalate_cons_of_ne_nil (by simpa using hnil),
        String.intercalate_cons_of_ne_nil (by simpa using hnil)]
      simp only [String.length_append]
      omega

theorem length_intercalate_lt (h : ∀ x ∈ l, (texts x).length ≤ (texts' x).length)
    (hlt : ∃ x ∈ l, (texts x).length < (texts' x).length) :
    (sep.intercalate (l.map texts)).length < (sep.intercalate (l.map texts')).length := by
  induction l with
  | nil => simp at hlt
  | cons x l ih =>
    rw [List.forall_mem_cons] at h
    rw [List.exists_mem_cons_iff] at hlt
    by_cases hnil : l = []
    · simpa [hnil] using hlt
    · have hrest : (sep.intercalate (l.map texts)).length ≤
          (sep.intercalate (l.map texts')).length := length_intercalate_le h.2
      rw [List.map_cons, List.map_cons, String.intercalate_cons_of_ne_nil (by simpa using hnil),
        String.intercalate_cons_of_ne_nil (by simpa using hnil)]
      simp only [String.length_append]
      obtain hlt | hlt := hlt
      · omega
      · have hrest := ih h.2 hlt
        omega

end Lengths

end PropSchema.Text
