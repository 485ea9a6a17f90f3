import PropSchema.Path.Raw
import PropSchema.Proofs.Path.Normal

namespace PropSchema

namespace Text

def IsText (name : List UInt8) : Prop := ∃ text, name = bytes text

theorem firstChar?_encode (c : Char) (rest : List UInt8) :
    firstChar? (String.utf8EncodeChar c ++ rest) = some c := by
  have hlength : (String.utf8EncodeChar c).length ≤ 4 := by
    rw [String.length_utf8EncodeChar]
    exact c.utf8Size_le_four
  rw [firstChar?, List.take_append, List.take_of_length_le hlength, List.toByteArray_append]
  exact ByteArray.utf8DecodeChar?_utf8EncodeChar_append

theorem lossyChars_eq_drop (read : Nat) (bytes : List UInt8) :
    lossyChars read bytes = lossyChars 0 (bytes.drop read) := by
  induction read generalizing bytes with
  | zero => rfl
  | succ read ih =>
    cases bytes with
    | nil => rw [List.drop_nil, lossyChars, lossyChars]
    | cons b rest => rw [lossyChars, ih, List.drop_succ_cons]

theorem lossyChars_encode (c : Char) (rest : List UInt8) :
    lossyChars 0 (String.utf8EncodeChar c ++ rest) = c :: lossyChars 0 rest := by
  have hlength := String.length_utf8EncodeChar c
  cases hbytes : String.utf8EncodeChar c with
  | nil =>
    rw [hbytes, List.length_nil] at hlength
    exact absurd hlength.symm (Nat.ne_of_gt c.utf8Size_pos)
  | cons b more =>
    have hfirst := firstChar?_encode c rest
    rw [hbytes, List.cons_append] at hfirst
    rw [hbytes, List.length_cons] at hlength
    rw [List.cons_append, lossyChars, hfirst]
    dsimp only
    rw [lossyChars_eq_drop, ← hlength, Nat.add_sub_cancel, List.drop_left]

@[simp] theorem lossy_bytes (text : String) : lossy (bytes text) = text := by
  have hchars : ∀ chars : List Char,
      lossyChars 0 (chars.flatMap String.utf8EncodeChar) = chars := by
    intro chars
    induction chars with
    | nil => rfl
    | cons c chars ih => rw [List.flatMap_cons, lossyChars_encode, ih]
  rw [lossy, bytes, hchars, String.ofList_toList]

theorem bytes_injective {text text' : String} (h : bytes text = bytes text') : text = text' := by
  rw [← lossy_bytes text, h, lossy_bytes]

theorem isText_iff {name : List UInt8} : IsText name ↔ bytes (lossy name) = name := by
  constructor
  · rintro ⟨text, rfl⟩
    rw [lossy_bytes]
  · exact fun h => ⟨_, h.symm⟩

instance (name : List UInt8) : Decidable (IsText name) := decidable_of_iff' _ isText_iff

theorem bytes_append (text text' : String) : bytes (text ++ text') = bytes text ++ bytes text' := by
  rw [bytes, String.toList_append, List.flatMap_append]
  rfl

theorem slash_ne_or {mask : UInt8} (h : RawPath.slash.toNat < mask.toNat) (b : UInt8) :
    RawPath.slash ≠ b ||| mask := by
  intro heq
  have hle : mask.toNat ≤ (b ||| mask).toNat := by
    rw [UInt8.toNat_or]
    exact Nat.right_le_or
  rw [← heq] at hle
  exact absurd h (Nat.not_lt.2 hle)

theorem eq_of_slash_mem {c : Char} (h : RawPath.slash ∈ String.utf8EncodeChar c) : c = '/' := by
  obtain hsize | hsize | hsize | hsize := c.utf8Size_eq
  · rw [String.utf8EncodeChar_eq_singleton hsize, List.mem_singleton] at h
    have hsmall := UInt32.le_iff_toNat_le.1 (Char.utf8Size_eq_one_iff.1 hsize)
    have hbyte := congrArg UInt8.toNat h
    rw [UInt32.toNat_toUInt8, Nat.mod_eq_of_lt (Nat.lt_of_le_of_lt hsmall (by decide))] at hbyte
    exact Char.ext (UInt32.toNat_inj.1 hbyte.symm)
  · rw [String.utf8EncodeChar_eq_cons_cons hsize] at h
    simp (disch := decide) [slash_ne_or] at h
  · rw [String.utf8EncodeChar_eq_cons_cons_cons hsize] at h
    simp (disch := decide) [slash_ne_or] at h
  · rw [String.utf8EncodeChar_eq_cons_cons_cons_cons hsize] at h
    simp (disch := decide) [slash_ne_or] at h

theorem slash_mem_bytes_iff {text : String} :
    RawPath.slash ∈ bytes text ↔ '/' ∈ text.toList := by
  rw [bytes, List.mem_flatMap]
  constructor
  · rintro ⟨c, hc, hslash⟩
    rwa [← eq_of_slash_mem hslash]
  · exact fun h => ⟨'/', h, by decide⟩

theorem bytes_intercalate (texts : List String) :
    bytes ("/".intercalate texts) = [RawPath.slash].intercalate (texts.map bytes) := by
  induction texts with
  | nil => rfl
  | cons text texts ih =>
    cases texts with
    | nil => simp
    | cons next rest =>
      rw [String.intercalate_cons_of_ne_nil (List.cons_ne_nil _ _), bytes_append, bytes_append, ih,
        List.map_cons, List.map_cons, List.map_cons, List.intercalate_cons_cons]
      rfl

end Text

namespace RawPath

structure IsPart (name : List UInt8) : Prop where
  ne_nil : name ≠ []
  ne_dot : name ≠ [dot]
  not_mem : slash ∉ name

/-- A list of components such as a path has below a directory: only the first can be one that is
read apart from the rest. -/
structure AreComponents (names : List (List UInt8)) : Prop where
  exists_lead : ∃ lead parts, names = lead ++ parts ∧
    (lead = [] ∨ lead = [[slash]] ∨ lead = [[dot]]) ∧ ∀ part ∈ parts, IsPart part

theorem isPart_of_mem {bytes part : List UInt8}
    (h : part ∈ (bytes.splitOn slash).filter fun part => part != [] && part != [dot]) :
    IsPart part := by
  obtain ⟨hmem, hname⟩ := List.mem_filter.1 h
  simp only [Bool.and_eq_true, bne_iff_ne] at hname
  exact ⟨hname.1, hname.2, not_mem_of_mem_splitOn hmem⟩

theorem areComponents_components (p : RawPath) : AreComponents p.components := by
  refine ⟨lead p.bytes, _, rfl, ?_, fun _ => isPart_of_mem⟩
  fun_cases lead p.bytes <;> simp

theorem AreComponents.suffix {above names : List (List UInt8)}
    (h : AreComponents (above ++ names)) : AreComponents names := by
  obtain ⟨lead, parts, heq, hlead, hparts⟩ := h
  cases above with
  | nil => exact ⟨lead, parts, heq, hlead, hparts⟩
  | cons first above =>
    -- What is above has the lead, if there is one.
    have hmem : ∀ name ∈ names, name ∈ parts := by
      intro name hname
      obtain rfl | rfl | rfl := hlead
      · rw [List.nil_append] at heq
        exact heq ▸ List.mem_append_right _ hname
      all_goals
        rw [List.cons_append, List.singleton_append, List.cons.injEq] at heq
        exact heq.2 ▸ List.mem_append_right _ hname
    exact ⟨[], names, rfl, .inl rfl, fun name hname => hparts name (hmem name hname)⟩

theorem filter_parts {parts : List (List UInt8)} (h : ∀ part ∈ parts, IsPart part) :
    parts.filter (fun part => part != [] && part != [dot]) = parts := by
  rw [List.filter_eq_self]
  intro part hpart
  simp [(h part hpart).ne_nil, (h part hpart).ne_dot]

theorem splitOn_intercalate_parts {parts : List (List UInt8)} (h : ∀ part ∈ parts, IsPart part)
    (hne : parts ≠ []) : ([slash].intercalate parts).splitOn slash = parts :=
  List.splitOn_intercalate slash (fun part hpart => (h part hpart).not_mem) hne

theorem splitOn_slash_cons (bytes : List UInt8) :
    (slash :: bytes).splitOn slash = [] :: bytes.splitOn slash := by
  rw [List.splitOn_cons_eq_if_modifyHead, if_pos (beq_self_eq_true slash)]

theorem splitOn_dot_slash_cons (bytes : List UInt8) :
    (dot :: slash :: bytes).splitOn slash = [dot] :: bytes.splitOn slash := by
  rw [List.splitOn_cons_eq_if_modifyHead, if_neg (by decide), splitOn_slash_cons,
    List.modifyHead_cons]

theorem lead_of_splitOn {bytes first : List UInt8} {rest : List (List UInt8)}
    (h : bytes.splitOn slash = first :: rest) (hfirst : IsPart first) : lead bytes = [] := by
  have hhead : bytes.head? ≠ some slash := by
    intro hslash
    obtain ⟨body, rfl⟩ := List.head?_eq_some_iff.1 hslash
    rw [splitOn_slash_cons, List.cons.injEq] at h
    exact hfirst.ne_nil h.1.symm
  simp [lead, hhead, h, hfirst.ne_dot]

theorem components_intercalate {names : List (List UInt8)} (h : AreComponents names) :
    (⟨[slash].intercalate names⟩ : RawPath).components = names := by
  obtain ⟨lead, parts, rfl, hlead, hparts⟩ := h
  cases parts with
  | nil => obtain rfl | rfl | rfl := hlead <;> decide
  | cons first rest =>
    have hsplit := splitOn_intercalate_parts hparts (List.cons_ne_nil _ _)
    have hkept := filter_parts hparts
    rw [components]
    obtain rfl | rfl | rfl := hlead
    · rw [List.nil_append, lead_of_splitOn hsplit (hparts first List.mem_cons_self), hsplit, hkept,
        List.nil_append]
    · rw [List.singleton_append, List.intercalate_cons_cons]
      simp only [List.cons_append, List.nil_append]
      rw [splitOn_slash_cons, splitOn_slash_cons, hsplit]
      exact congrArg ([slash] :: ·) hkept
    · rw [List.singleton_append, List.intercalate_cons_cons]
      simp only [List.cons_append, List.nil_append]
      rw [splitOn_dot_slash_cons, hsplit, List.filter_cons_of_neg (by decide), hkept, RawPath.lead,
        splitOn_dot_slash_cons]
      rfl

end RawPath

def Component.IsRead (c : Component) : Prop := c = .root ∨ c = .current ∨ c.IsWritten

theorem Component.text_inj {c d : Component} (hc : c.IsRead) (hd : d.IsRead)
    (h : c.text = d.text) : c = d := by
  have hroot : ∀ e : Component, e.IsWritten → e.text ≠ "/" := fun e he htext =>
    absurd he.2 (by rw [htext]; decide)
  have hcurrent : ∀ e : Component, e.IsWritten → e.text ≠ "." := fun e he htext =>
    absurd he.1 (by rw [htext]; simp [Path.component?])
  obtain rfl | rfl | hc := hc <;> obtain rfl | rfl | hd := hd
  · rfl
  · exact absurd h (by decide)
  · exact absurd h.symm (hroot d hd)
  · exact absurd h (by decide)
  · rfl
  · exact absurd h.symm (hcurrent d hd)
  · exact absurd h (hroot c hc)
  · exact absurd h (hcurrent c hc)
  · have hread := hc.1
    rw [h, hd.1] at hread
    exact (Option.some.inj hread).symm

namespace Path

open RawPath (slash dot)

theorem splitOn_bytes (text : String) :
    (Text.bytes text).splitOn slash =
      (segments text.toList).map fun part => Text.bytes (String.ofList part) := by
  have htext : "/".intercalate ((segments text.toList).map String.ofList) = text := by
    apply String.ext
    rw [String.toList_intercalate, List.map_map]
    simp only [Function.comp_def, String.toList_ofList, List.map_id']
    exact List.intercalate_splitOn '/'
  have hbytes := Text.bytes_intercalate ((segments text.toList).map String.ofList)
  rw [htext, List.map_map] at hbytes
  rw [hbytes]
  refine List.splitOn_intercalate slash ?_ (by simpa using segments_ne_nil _)
  intro part hpart hslash
  obtain ⟨chars, hchars, rfl⟩ := List.mem_map.1 hpart
  rw [Function.comp_apply, Text.slash_mem_bytes_iff, String.toList_ofList] at hslash
  exact not_mem_of_mem_segments hchars hslash

theorem head?_bytes {text : String} :
    (Text.bytes text).head? = some slash ↔ text.toList.head? = some '/' := by
  rw [Text.bytes]
  cases text.toList with
  | nil => simp
  | cons c chars =>
    rw [List.flatMap_cons, List.head?_append, List.head?_cons, Option.some.injEq]
    constructor
    · intro h
      cases hbytes : String.utf8EncodeChar c with
      | nil =>
        have hlength := String.length_utf8EncodeChar c
        rw [hbytes, List.length_nil] at hlength
        exact absurd hlength.symm (Nat.ne_of_gt c.utf8Size_pos)
      | cons b more =>
        rw [hbytes, List.head?_cons, Option.some_or, Option.some.injEq] at h
        exact Text.eq_of_slash_mem (by simp [hbytes, h])
    · rintro rfl
      rfl

theorem eq_of_segments_dot {chars : List Char} {rest : List (List Char)}
    (h : segments chars = ['.'] :: rest) : chars = ['.'] ∨ ∃ body, chars = '.' :: '/' :: body := by
  cases chars with
  | nil => cases h
  | cons c chars =>
    rw [segments_cons] at h
    split at h
    · cases h
    · cases chars with
      | nil =>
        rw [segments, List.splitOn_nil, List.modifyHead_cons, List.cons.injEq] at h
        exact .inl h.1
      | cons d chars =>
        rw [segments_cons] at h
        split at h
        · next hd =>
          rw [List.modifyHead_cons, List.cons.injEq, List.cons.injEq] at h
          exact .inr ⟨chars, by rw [h.1.1, hd]⟩
        · obtain ⟨first, more, hfirst⟩ := List.exists_cons_of_ne_nil (segments_ne_nil chars)
          rw [hfirst] at h
          cases h

theorem filter_bytes (parts : List (List Char)) :
    (parts.map fun part => Text.bytes (String.ofList part)).filter
        (fun part => part != [] && part != [dot]) =
      (parts.filterMap component?).map fun c => Text.bytes c.text := by
  induction parts with
  | nil => rfl
  | cons part parts ih =>
    rw [List.map_cons, List.filterMap_cons]
    cases hc : component? part with
    | none =>
      have hpart : part = [] ∨ part = ['.'] := by
        revert hc
        fun_cases component? part <;> simp
      rw [List.filter_cons_of_neg, ih]
      obtain rfl | rfl := hpart <;> decide
    | some c =>
      have htext : c.text = String.ofList part := String.ext (by
        rw [text_of_component? hc, String.toList_ofList])
      have hkeep : ∀ chars, component? chars = none →
          Text.bytes (String.ofList part) ≠ Text.bytes (String.ofList chars) := by
        intro chars hnone heq
        have hsame := congrArg String.toList (Text.bytes_injective heq)
        rw [String.toList_ofList, String.toList_ofList] at hsame
        rw [hsame, hnone] at hc
        cases hc
      rw [List.filter_cons_of_pos, ih, List.map_cons, htext]
      have hnil : Text.bytes (String.ofList part) ≠ [] := hkeep [] rfl
      have hdot : Text.bytes (String.ofList part) ≠ [dot] := hkeep ['.'] rfl
      simp [hnil, hdot]

theorem segments_dot_slash (body : List Char) :
    segments ('.' :: '/' :: body) = ['.'] :: segments body := by
  rw [segments_cons, segments_cons, if_neg (by decide), if_pos rfl, List.modifyHead_cons]

theorem lead_bytes (text : String) :
    RawPath.lead (Text.bytes text) =
      (splitLead text.toList).1.toList.map fun c => Text.bytes c.text := by
  have hhead := @head?_bytes text
  rw [RawPath.lead, splitOn_bytes]
  generalize text.toList = chars at hhead ⊢
  fun_cases splitLead chars with
  | case1 body =>
    rw [if_pos (beq_iff_eq.2 (hhead.2 rfl))]
    rfl
  | case2 =>
    rw [if_neg (mt (hhead.1 ∘ beq_iff_eq.1) (by decide))]
    rfl
  | case3 body =>
    rw [if_neg (mt (hhead.1 ∘ beq_iff_eq.1) (by simp)), segments_dot_slash]
    rfl
  | case4 _ hroot hdot hlead =>
    have hslash : chars.head? ≠ some '/' := by
      intro h
      obtain ⟨body, hbody⟩ := List.head?_eq_some_iff.1 h
      exact hroot body hbody
    rw [if_neg (mt (hhead.1 ∘ beq_iff_eq.1) hslash), if_neg]
    · rfl
    · intro h
      obtain ⟨first, rest, hfirst⟩ := List.exists_cons_of_ne_nil (segments_ne_nil chars)
      rw [hfirst, List.map_cons, List.head?_cons, beq_iff_eq, Option.some.injEq] at h
      have hsame : String.ofList first = "." := Text.bytes_injective h
      rw [← String.toList_inj, String.toList_ofList] at hsame
      obtain h | ⟨body, h⟩ := eq_of_segments_dot (hsame ▸ hfirst)
      · exact hdot h
      · exact hlead body h

theorem components_raw (p : Path) :
    p.raw.components = p.components.map fun c => Text.bytes c.text := by
  have hbody : ∀ chars : List Char, (segments chars).filterMap component? =
      (segments (splitLead chars).2).filterMap component? := by
    intro chars
    fun_cases splitLead chars with
    | case1 body => rw [segments_cons, if_pos rfl, List.filterMap_cons_none rfl]
    | case2 => rfl
    | case3 body =>
      rw [segments_dot_slash, segments_cons, if_pos rfl, List.filterMap_cons_none rfl,
        List.filterMap_cons_none rfl]
    | case4 => rfl
  rw [RawPath.components, raw, splitOn_bytes, filter_bytes, lead_bytes, hbody, ← List.map_append]
  rfl

theorem isRead_of_mem {p : Path} {c : Component} (h : c ∈ p.components) : c.IsRead := by
  obtain ⟨cs, hcs, heq⟩ := p.components_eq
  rw [heq, List.mem_append] at h
  obtain hlead | hc := h
  · revert hlead
    fun_cases splitLead p.text.toList <;> simp +contextual [Component.IsRead]
  · exact .inr (.inr (hcs c hc))

theorem map_bytes_inj {cs ds : List Component} (hcs : ∀ c ∈ cs, c.IsRead)
    (hds : ∀ d ∈ ds, d.IsRead)
    (h : cs.map (fun c => Text.bytes c.text) = ds.map fun d => Text.bytes d.text) : cs = ds := by
  induction cs generalizing ds with
  | nil => exact (List.map_eq_nil_iff.1 h.symm).symm
  | cons c cs ih =>
    cases ds with
    | nil => cases h
    | cons d ds =>
      rw [List.map_cons, List.map_cons, List.cons.injEq] at h
      rw [List.forall_mem_cons] at hcs hds
      rw [Component.text_inj hcs.1 hds.1 (Text.bytes_injective h.1), ih hcs.2 hds.2 h.2]

theorem below?_raw (p directory : Path) :
    p.raw.below? directory.raw =
      (p.below? directory).map (List.map fun c => Text.bytes c.text) := by
  ext names
  rw [RawPath.below?, List.isPrefixOf?_eq_some_iff_append_eq, components_raw, components_raw,
    Option.map_eq_some_iff]
  simp only [below?, List.isPrefixOf?_eq_some_iff_append_eq]
  constructor
  · intro h
    obtain ⟨above, cs, hcomponents, habove, rfl⟩ := List.append_eq_map_iff.1 h
    have hread : ∀ c ∈ above, c.IsRead := fun c hc =>
      isRead_of_mem (hcomponents ▸ List.mem_append_left _ hc)
    rw [map_bytes_inj hread (fun _ => isRead_of_mem) habove] at hcomponents
    exact ⟨cs, hcomponents.symm, rfl⟩
  · rintro ⟨cs, hcs, rfl⟩
    rw [← hcs, List.map_append]

theorem fileName?_raw (p : Path) : p.raw.fileName? = p.fileName?.map Text.bytes := by
  rw [RawPath.fileName?, fileName?, components_raw, List.getLast?_map]
  cases hlast : p.components.getLast? with
  | none => rfl
  | some c =>
    cases c with
    | normal name =>
      have hread := isRead_of_mem (List.mem_of_getLast? hlast)
      have hne : ∀ d : Component, d.IsRead → d ≠ .normal name →
          Text.bytes name ≠ Text.bytes d.text := fun d hd hne hbytes =>
        hne (Component.text_inj hd hread (Text.bytes_injective hbytes).symm)
      have hroot : Text.bytes name ≠ [slash] := hne .root (.inl rfl) (by simp)
      have hcurrent : Text.bytes name ≠ [dot] := hne .current (.inr (.inl rfl)) (by simp)
      have hparent : Text.bytes name ≠ [dot, dot] :=
        hne .parent (.inr (.inr ⟨rfl, by decide⟩)) (by simp)
      simp [Component.text, hroot, hcurrent, hparent]
    | _ => rfl

end Path

end PropSchema
