import PropSchema.Proofs.Text.Affix
import PropSchema.Ty.Label

namespace PropSchema.Label

open Text (Apart)

/-- The piece that decides whether pieces one after another read as content: the first one with
type arguments, or the last one. -/
def decisive : List String → String
  | [] => ""
  | [piece] => piece
  | piece :: rest => if '<' ∈ piece.toList then piece else decisive rest

def dropMarkup : List String → List String
  | [] => []
  | piece :: rest =>
    if (Text.cut? "JSX." piece).isSome then Text.replaceFirst "JSX." "" piece :: rest
    else piece :: dropMarkup rest

/-- Whether pieces one after another read as a label: the first one as a built-in type with
arguments, or the decisive one as content. -/
def readsAsLabel (pieces : List String) : Bool :=
  standardTypes.any (fun name => Text.startsWith (name ++ "<") (pieces.headD "")) ||
    isContent (decisive (dropMarkup pieces))

structure IsSeparator (sep : String) : Prop where
  ne_empty : sep ≠ ""
  blank : ∀ c ∈ sep.toList, c = ' ' ∨ c = '|'

theorem isSeparator_blank : IsSeparator " " := ⟨by decide, by simp⟩

theorem isSeparator_bar : IsSeparator " | " := ⟨by decide, by simp⟩

variable {sep a b : String}

theorem IsSeparator.apart (h : IsSeparator sep) {text : String}
    (htext : ' ' ∉ text.toList ∧ '|' ∉ text.toList) : Apart sep text := by
  intro c hc
  obtain rfl | rfl := h.blank c hc
  · exact htext.1
  · exact htext.2

def head (text : String) : String := String.ofList (text.toList.takeWhile (· != '<'))

theorem takeWhile_append_of_not_mem {l r : List Char} (h : '<' ∉ l) :
    (l ++ r).takeWhile (· != '<') = l ++ r.takeWhile (· != '<') := by
  apply List.takeWhile_append_of_pos
  intro c hc
  exact bne_iff_ne.2 fun heq => h (heq ▸ hc)

theorem head_append_of_not_mem (h : '<' ∉ a.toList) : head (a ++ b) = a ++ head b := by
  rw [head, String.toList_append, takeWhile_append_of_not_mem h]
  simp [head]

theorem head_append_of_mem (h : '<' ∈ a.toList) : head (a ++ b) = head a := by
  obtain ⟨l, r, ha, hl⟩ := List.eq_append_cons_of_mem h
  simp [head, ha, takeWhile_append_of_not_mem hl]

theorem isContent_eq (text : String) :
    isContent text = contentTypes.any (Text.endsWith · (head text)) := rfl

theorem any_endsWith_append (hne : sep ≠ "") (h : ∀ name ∈ contentTypes, Apart sep name) :
    contentTypes.any (Text.endsWith · (a ++ sep ++ b)) = contentTypes.any (Text.endsWith · b) := by
  rw [Bool.eq_iff_iff, List.any_eq_true, List.any_eq_true]
  refine exists_congr fun name => and_congr_right fun hname => ?_
  rw [Text.endsWith_append hne (h name hname)]

theorem isContent_append (h : IsSeparator sep) :
    isContent (a ++ sep ++ b) = if '<' ∈ a.toList then isContent a else isContent b := by
  split
  · next hmem =>
    have hmem' : '<' ∈ (a ++ sep).toList := by simp [hmem]
    rw [isContent_eq, head_append_of_mem hmem', head_append_of_mem hmem, isContent_eq]
  · next hmem =>
    have hmem' : '<' ∉ (a ++ sep).toList := by
      have hsep : Apart sep "<" := h.apart (by decide)
      rw [String.toList_append, List.mem_append, not_or]
      exact ⟨hmem, fun hc => hsep '<' hc (by decide)⟩
    have hcontent : ∀ name ∈ contentTypes, ' ' ∉ name.toList ∧ '|' ∉ name.toList := by decide
    rw [isContent_eq, head_append_of_not_mem hmem', isContent_eq]
    exact any_endsWith_append h.ne_empty fun name hname => h.apart (hcontent name hname)

theorem isContent_react (rest : String) : isContent ("React." ++ rest) = isContent rest := by
  have hcontent : ∀ name ∈ contentTypes, '.' ∉ name.toList := by decide
  rw [isContent_eq, head_append_of_not_mem (by decide), isContent_eq,
    show "React." = "React" ++ "." from rfl]
  apply any_endsWith_append (by decide)
  intro name hname c hc
  obtain rfl : c = '.' := List.mem_singleton.1 hc
  exact hcontent name hname

theorem isContent_clean (text : String) :
    isContent (clean text) = isContent (Text.replaceFirst "JSX." "" text) := by
  rw [clean]
  cases hreact : Text.dropPrefix? "React." text with
  | none => rfl
  | some rest =>
    rw [Text.dropPrefix?_eq_some_iff.1 hreact,
      Text.replaceFirst_append_of_not_mem (m := 'J') rfl (by decide), isContent_react]
    rfl

/-- The decisive piece reads as the whole text does. -/
theorem isContent_intercalate (h : IsSeparator sep) (pieces : List String) :
    isContent (sep.intercalate pieces) = isContent (decisive pieces) := by
  fun_induction decisive pieces with
  | case1 => rfl
  | case2 piece => rw [String.intercalate_singleton]
  | case3 piece rest hne hmem =>
    rw [String.intercalate_cons_of_ne_nil hne, isContent_append h, if_pos hmem]
  | case4 piece rest hne hmem ih =>
    rw [String.intercalate_cons_of_ne_nil hne, isContent_append h, if_neg hmem, ih]

theorem dropMarkup_ne_nil {pieces : List String} (h : pieces ≠ []) : dropMarkup pieces ≠ [] := by
  fun_cases dropMarkup pieces with
  | case1 => exact absurd rfl h
  | case2 => exact List.cons_ne_nil _ _
  | case3 => exact List.cons_ne_nil _ _

theorem replaceFirst_intercalate (h : IsSeparator sep) (pieces : List String) :
    Text.replaceFirst "JSX." "" (sep.intercalate pieces) = sep.intercalate (dropMarkup pieces) := by
  have happart : Apart sep "JSX." := h.apart (by decide)
  induction pieces with
  | nil => rfl
  | cons piece rest ih =>
    by_cases hrest : rest = []
    · subst hrest
      rw [dropMarkup, String.intercalate_singleton]
      split
      · rw [String.intercalate_singleton]
      · next hcut =>
        rw [Text.replaceFirst_of_cut_eq_none hcut, dropMarkup, String.intercalate_singleton]
    · rw [String.intercalate_cons_of_ne_nil hrest,
        Text.replaceFirst_append (by decide) h.ne_empty happart, dropMarkup]
      split
      · rw [String.intercalate_cons_of_ne_nil hrest]
      · rw [String.intercalate_cons_of_ne_nil (dropMarkup_ne_nil hrest), ih]

theorem IsSeparator.append_ne (h : IsSeparator sep) {text : String}
    (htext : ' ' ∉ text.toList ∧ '|' ∉ text.toList) : a ++ sep ++ b ≠ text := by
  rintro rfl
  obtain ⟨c, hc⟩ := List.exists_mem_of_ne_nil sep.toList (by simpa using h.ne_empty)
  exact h.apart htext c hc (by simp [hc])

theorem not_isPrimitive_append (h : IsSeparator sep) :
    primitives.contains (a ++ sep ++ b) = false := by
  have hprimitives : ∀ name ∈ primitives, ' ' ∉ name.toList ∧ '|' ∉ name.toList := by decide
  rw [Bool.eq_false_iff, ne_eq, List.contains_iff_mem]
  exact fun hmem => h.append_ne (hprimitives _ hmem) rfl

theorem isStandard_append (h : IsSeparator sep) :
    isStandard (a ++ sep ++ b) =
      standardTypes.any fun name => Text.startsWith (name ++ "<") a := by
  have hstandard : ∀ name ∈ standardTypes, (' ' ∉ name.toList ∧ '|' ∉ name.toList) ∧
      ' ' ∉ (name ++ "<").toList ∧ '|' ∉ (name ++ "<").toList := by decide
  rw [isStandard, Bool.eq_iff_iff, List.any_eq_true, List.any_eq_true]
  refine exists_congr fun name => and_congr_right fun hname => ?_
  have hne : (a ++ sep ++ b == name) = false :=
    beq_false_of_ne (h.append_ne (hstandard name hname).1)
  rw [hne, Bool.false_or, Text.startsWith_append h.ne_empty (h.apart (hstandard name hname).2)]

theorem isAtomic_intercalate (h : IsSeparator sep) {pieces : List String}
    (htwo : 2 ≤ pieces.length) :
    isAtomic (sep.intercalate pieces) = readsAsLabel pieces := by
  have hcontent : isContent (clean (sep.intercalate pieces)) =
      isContent (decisive (dropMarkup pieces)) := by
    rw [isContent_clean, replaceFirst_intercalate h, isContent_intercalate h]
  cases pieces with
  | nil => simp at htwo
  | cons first rest =>
    have hrest : rest ≠ [] := by
      rintro rfl
      simp at htwo
    rw [isAtomic, hcontent, String.intercalate_cons_of_ne_nil hrest, not_isPrimitive_append h,
      isStandard_append h]
    rfl

end PropSchema.Label

namespace PropSchema

def Member.clause (text : TypeId → String) (m : Member) : String :=
  m.name ++ (if m.optional then "?" else "") ++ ": " ++ text m.declared ++ ";"

theorem Member.display_eq_clause (text : TypeId → String) (m : Member) :
    m.display text = m.clause text ++ " " := by
  simp only [Member.display, Member.clause, String.append_assoc]
  rfl

namespace TypeTable

variable {t : TypeTable} {id : TypeId} {parts : List TypeId} {o : ObjectType}

theorem displayAt_of_alias_none (h : t.alias? id = none) (levels : Nat) :
    t.displayAt (levels + 1) id = t.displayForm (t.displayAt levels) (t.form id) := by
  rw [displayAt.eq_def]
  simp only [h]

theorem display_of_alias_none (h : t.alias? id = none) :
    t.display id = t.displayForm (t.displayAt (displayLevels - 1)) (t.form id) :=
  displayAt_of_alias_none h (displayLevels - 1)

theorem display_of_alias {a : Alias} (h : t.alias? id = some a) : t.display id = a.name := by
  rw [display, displayAt.eq_def]
  simp only [h]

def pieces (t : TypeTable) (id : TypeId) : List String :=
  let text := t.displayAt (displayLevels - 1)
  match t.form id with
  | .object o => "\x7b" :: o.members.map (·.clause text) ++ ["\x7d"]
  | .union parts =>
    (t.foldBooleans parts).map fun part => part.elim "boolean" (t.displayOperand text false)
  | _ => []

theorem join_display (text : TypeId → String) (members : List Member) :
    String.join (members.map (·.display text)) ++ "\x7d" =
      " ".intercalate (members.map (·.clause text) ++ ["\x7d"]) := by
  induction members with
  | nil => rfl
  | cons m members ih =>
    rw [List.map_cons, List.map_cons, List.cons_append, String.intercalate_cons_of_ne_nil (by simp),
      ← ih, Member.display_eq_clause, String.join_cons, String.append_assoc]

theorem display_of_object (halias : t.alias? id = none) (hform : t.form id = .object o)
    (hname : o.name = none) (hcalls : o.calls = []) (hmembers : o.members ≠ []) :
    t.display id = " ".intercalate (t.pieces id) := by
  have htext (text : TypeId → String) : o.display text =
      "\x7b " ++ (String.join (o.members.map (·.display text)) ++ "\x7d") := by
    obtain ⟨first, rest, hcons⟩ := List.exists_cons_of_ne_nil hmembers
    simp only [ObjectType.display, hname, hcalls, hcons, ← String.append_assoc]
    rfl
  rw [display_of_alias_none halias, hform, displayForm, htext, join_display]
  simp only [pieces, hform]
  rw [List.cons_append, String.intercalate_cons_of_ne_nil (by simp)]
  rfl

theorem display_of_union (halias : t.alias? id = none) (hform : t.form id = .union parts) :
    t.display id = " | ".intercalate (t.pieces id) := by
  rw [display_of_alias_none halias, hform, displayForm]
  simp only [pieces, hform]
  congr 1
  apply List.map_congr_left
  intro part _
  cases part <;> rfl

theorem two_le_length_foldBooleans (htwo : 2 ≤ parts.length)
    (hother : ∃ v ∈ parts, ¬ (t.form v).isBooleanLiteral) : 2 ≤ (t.foldBooleans parts).length := by
  simp only [foldBooleans]
  split
  · obtain ⟨v, hv, hnot⟩ := hother
    rw [← List.takeWhile_append_dropWhile (p := fun v => ! (t.form v).isBooleanLiteral) (l := parts),
      List.mem_append] at hv
    simp only [List.length_append, List.length_map, List.length_cons]
    obtain hv | hv := hv
    · have hpos := List.length_pos_of_mem hv
      omega
    · have hpos := List.length_pos_of_mem (List.mem_filter.2 ⟨hv, by simpa using hnot⟩ :
        v ∈ (parts.dropWhile fun v => ! (t.form v).isBooleanLiteral).filter
          fun v => ! (t.form v).isBooleanLiteral)
      omega
  · rwa [List.length_map]

end TypeTable

end PropSchema
