import PropSchema.Component.Source
import PropSchema.Proofs.Path.Raw
import PropSchema.Schema.Key

namespace PropSchema

def keyOfStem (stem : String) : String := (Text.dropSuffix? "/index" stem).getD stem

theorem keyOfText_stem (stem : String) : keyOfText (stem ++ ".tsx") = keyOfStem stem := by
  rw [keyOfText, Text.dropSuffix?_eq_some_iff.2 rfl]
  rfl

theorem keyOfStem_cases (stem : String) :
    (stem = keyOfStem stem ++ "/index") ∨
      (stem = keyOfStem stem ∧ Text.endsWith "/index" stem = false) := by
  rw [keyOfStem, Text.endsWith]
  cases hdrop : Text.dropSuffix? "/index" stem with
  | none => exact .inr ⟨rfl, rfl⟩
  | some key => exact .inl (Text.dropSuffix?_eq_some_iff.1 hdrop)

theorem keyOfStem_of_endsWith {key : String} (h : Text.endsWith "/index" key = false) :
    keyOfStem key = key := by
  obtain hindex | ⟨hsame, -⟩ := keyOfStem_cases key
  · rw [hindex, Bool.eq_false_iff] at h
    exact absurd (Text.endsWith_iff.2 ⟨_, rfl⟩) h
  · exact hsame.symm

theorem keyOfStem_index (key : String) : keyOfStem (key ++ "/index") = key := by
  rw [keyOfStem, Text.dropSuffix?_eq_some_iff.2 rfl]
  rfl

theorem keyOfStem_eq_iff {stem stem' : String} (hne : stem ≠ stem') :
    keyOfStem stem = keyOfStem stem' ↔ ∃ key, Text.endsWith "/index" key = false ∧
      (stem = key ∧ stem' = key ++ "/index" ∨ stem = key ++ "/index" ∧ stem' = key) := by
  constructor
  · intro heq
    obtain hindex | ⟨hsame, hends⟩ := keyOfStem_cases stem
    · obtain hindex' | ⟨hsame', hends'⟩ := keyOfStem_cases stem'
      · exact absurd (by rw [hindex, hindex', heq]) hne
      · exact ⟨stem', hends', .inr ⟨by rwa [heq, ← hsame'] at hindex, rfl⟩⟩
    · obtain hindex' | ⟨hsame', -⟩ := keyOfStem_cases stem'
      · exact ⟨stem, hends, .inl ⟨rfl, by rwa [← heq, ← hsame] at hindex'⟩⟩
      · exact absurd (by rw [hsame, hsame', heq]) hne
  · rintro ⟨key, hends, ⟨rfl, rfl⟩ | ⟨rfl, rfl⟩⟩
    · rw [keyOfStem_of_endsWith hends, keyOfStem_index]
    · rw [keyOfStem_of_endsWith hends, keyOfStem_index]

theorem schemaKey?_eq (root file : Path) :
    schemaKey? root file = (file.below? root).map fun components =>
      keyOfText ("/".intercalate (components.map Component.text)) := by
  rw [schemaKey?, RawPath.schemaKey?, Path.below?_raw, Option.map_map]
  simp [Function.comp_def, RawPath.shown]

theorem Path.isComponentFile_eq (p : Path) :
    p.isComponentFile = p.fileName?.any isComponentName := by
  rw [isComponentFile, RawPath.isComponentFile, fileName?_raw, Option.any_map]
  simp

namespace RawPath

theorem bytes_shown {names : List (List UInt8)} (h : ∀ name ∈ names, Text.IsText name) :
    Text.bytes (shown names) = [slash].intercalate names := by
  have hnames : names.map (Text.bytes ∘ Text.lossy) = names :=
    List.map_congr_left (fun name hname => Text.isText_iff.1 (h name hname)) |>.trans
      (List.map_id' names)
  rw [shown, Text.bytes_intercalate, List.map_map, hnames]

theorem eq_of_shown_eq {names names' : List (List UInt8)} (h : AreComponents names)
    (h' : AreComponents names') (htext : ∀ name ∈ names, Text.IsText name)
    (htext' : ∀ name ∈ names', Text.IsText name) (hshown : shown names = shown names') :
    names = names' := by
  have hbytes := congrArg Text.bytes hshown
  rw [bytes_shown htext, bytes_shown htext'] at hbytes
  rw [← components_intercalate h, hbytes, components_intercalate h']

structure IsSource (root file : RawPath) (names : List (List UInt8)) : Prop where
  isComponentFile : file.isComponentFile
  below : file.below? root = some names
  ne_nil : names ≠ []

namespace IsSource

variable {root file : RawPath} {names : List (List UInt8)}

theorem components_eq (h : IsSource root file names) :
    file.components = root.components ++ names :=
  (List.isPrefixOf?_eq_some_iff_append_eq.1 h.below).symm

theorem areComponents (h : IsSource root file names) : AreComponents names :=
  (h.components_eq ▸ areComponents_components file).suffix

theorem exists_stem (h : IsSource root file names) : ∃ stem, shown names = stem ++ ".tsx" := by
  obtain ⟨name, hname, hsource⟩ := (Option.any_eq_true _ _).1 h.isComponentFile
  have hlast : names.getLast? = some name := by
    rw [← List.getLast?_append_of_ne_nil root.components h.ne_nil, ← h.components_eq]
    exact (Option.filter_eq_some_iff.1 hname).1
  obtain ⟨above, rfl⟩ := List.getLast?_eq_some_iff.1 hlast
  obtain ⟨start, hstart⟩ := Text.endsWith_iff.1 (Bool.and_eq_true_iff.1 hsource).1
  rw [shown, List.map_append, List.map_singleton]
  by_cases hnil : above = []
  · exact ⟨start, by simp [hnil, hstart]⟩
  · rw [Path.intercalate_concat (by simpa using hnil), hstart, ← String.append_assoc]
    exact ⟨_, rfl⟩

end IsSource

theorem schemaKey?_eq {root file : RawPath} {names : List (List UInt8)}
    (h : IsSource root file names) : root.schemaKey? file = some (keyOfText (shown names)) := by
  rw [schemaKey?, h.below, Option.map_some]

def AreFileAndIndex (text text' : String) : Prop :=
  ∃ key : String, Text.endsWith "/index" key = false ∧
    (text = key ++ ".tsx" ∧ text' = key ++ "/index.tsx" ∨
      text = key ++ "/index.tsx" ∧ text' = key ++ ".tsx")

theorem AreFileAndIndex.ne {text text' : String} (h : AreFileAndIndex text text') :
    text ≠ text' := by
  have hne : ∀ key : String, key ++ ".tsx" ≠ key ++ "/index.tsx" := fun key heq =>
    absurd (String.append_right_inj key |>.1 heq) (by decide)
  obtain ⟨key, -, ⟨rfl, rfl⟩ | ⟨rfl, rfl⟩⟩ := h
  · exact hne key
  · exact (hne key).symm

theorem keyOfText_eq_iff {stem stem' : String} (hne : stem ++ ".tsx" ≠ stem' ++ ".tsx") :
    keyOfText (stem ++ ".tsx") = keyOfText (stem' ++ ".tsx") ↔
      AreFileAndIndex (stem ++ ".tsx") (stem' ++ ".tsx") := by
  have hindex : ∀ key : String, key ++ "/index.tsx" = key ++ "/index" ++ ".tsx" := fun key => by
    rw [String.append_assoc]
    rfl
  rw [keyOfText_stem, keyOfText_stem, keyOfStem_eq_iff (fun h => hne (by rw [h]))]
  simp only [AreFileAndIndex, hindex, String.append_left_inj]

/-- Two component files at different places below the root have the same key if and only if their
paths are shown alike, or as `key.tsx` and `key/index.tsx` for a key that does not end in `/index`
itself. Where all names are text only the second can be. -/
theorem schemaKey?_eq_iff {root f g : RawPath} {p q : List (List UInt8)} (hf : IsSource root f p)
    (hg : IsSource root g q) (hne : p ≠ q) :
    ∃ key key', root.schemaKey? f = some key ∧ root.schemaKey? g = some key' ∧
      (key = key' ↔ shown p = shown q ∨ AreFileAndIndex (shown p) (shown q)) ∧
      ((∀ name ∈ p ++ q, Text.IsText name) →
        (key = key' ↔ AreFileAndIndex (shown p) (shown q))) := by
  refine ⟨_, _, schemaKey?_eq hf, schemaKey?_eq hg, ?_⟩
  have hiff : shown p ≠ shown q →
      (keyOfText (shown p) = keyOfText (shown q) ↔ AreFileAndIndex (shown p) (shown q)) := by
    obtain ⟨stem, hstem⟩ := hf.exists_stem
    obtain ⟨stem', hstem'⟩ := hg.exists_stem
    rw [hstem, hstem']
    exact keyOfText_eq_iff
  constructor
  · by_cases hshown : shown p = shown q
    · simp [hshown]
    · rw [hiff hshown, or_iff_right hshown]
  · intro htext
    rw [List.forall_mem_append] at htext
    exact hiff fun hshown =>
      hne (eq_of_shown_eq hf.areComponents hg.areComponents htext.1 htext.2 hshown)

theorem schemaKey?_eq_iff_select :
    let root := Path.raw ⟨"/app/src"⟩
    let file := Path.raw ⟨"/app/src/forms/Select.tsx"⟩
    let index := Path.raw ⟨"/app/src/./forms/Select/index.tsx"⟩
    IsSource root file (["forms", "Select.tsx"].map Text.bytes) ∧
      IsSource root index (["forms", "Select", "index.tsx"].map Text.bytes) ∧
      root.schemaKey? file = some "forms/Select" ∧
      root.schemaKey? index = root.schemaKey? file := by
  intro root file index
  have hfile : IsSource root file (["forms", "Select.tsx"].map Text.bytes) :=
    ⟨by decide +kernel, by decide +kernel, by decide⟩
  have hindex : IsSource root index (["forms", "Select", "index.tsx"].map Text.bytes) :=
    ⟨by decide +kernel, by decide +kernel, by decide⟩
  obtain ⟨key, key', hkey, hkey', -, hiff⟩ := schemaKey?_eq_iff hfile hindex (by decide +kernel)
  have hsame : key = key' := by
    refine (hiff (by decide +kernel)).2 ⟨"forms/Select", by decide, .inl ⟨?_, ?_⟩⟩
    all_goals decide +kernel
  exact ⟨hfile, hindex, by decide +kernel, by rw [hkey, hkey', hsame]⟩

/-- Two names that are no text are shown alike, and so have one key. Two paths that are written as
`key.tsx` and `key/index.tsx` have different keys where the key ends in a slash. -/
theorem keys_of_broken_names :
    (let root := Path.raw ⟨"src"⟩
      let f : RawPath := ⟨Text.bytes "src/" ++ 0xFF :: Text.bytes ".tsx"⟩
      let g : RawPath := ⟨Text.bytes "src/" ++ 0xFE :: Text.bytes ".tsx"⟩
      IsSource root f [0xFF :: Text.bytes ".tsx"] ∧ IsSource root g [0xFE :: Text.bytes ".tsx"] ∧
        root.schemaKey? f = some "�" ∧ root.schemaKey? g = some "�" ∧
        ¬ AreFileAndIndex (shown [0xFF :: Text.bytes ".tsx"])
          (shown [0xFE :: Text.bytes ".tsx"])) ∧
    (let root := Path.raw ⟨"src"⟩
      let f := Path.raw ⟨"src/a/.tsx"⟩
      let g := Path.raw ⟨"src/a/index.tsx"⟩
      IsSource root f (Path.raw ⟨"a/" ++ ".tsx"⟩).components ∧
        IsSource root g (Path.raw ⟨"a/" ++ "/index.tsx"⟩).components ∧
        root.schemaKey? f = some "a/" ∧ root.schemaKey? g = some "a") := by
  refine ⟨⟨⟨?_, ?_, ?_⟩, ⟨?_, ?_, ?_⟩, ?_, ?_, fun h => h.ne ?_⟩,
    ⟨?_, ?_, ?_⟩, ⟨?_, ?_, ?_⟩, ?_, ?_⟩
  all_goals decide +kernel

end RawPath

end PropSchema
