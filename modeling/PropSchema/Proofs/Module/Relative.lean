import PropSchema.Proofs.Module.Sources
import PropSchema.Proofs.Tree.Lines

namespace PropSchema

namespace Specifier

def IsRelativeName (s : String) : Prop :=
  s = "." ∨ s = ".." ∨ (∃ rest, s = "./" ++ rest) ∨ ∃ rest, s = "../" ++ rest

theorem isRelative_iff {s : String} : isRelative s = true ↔ IsRelativeName s ∧ s ≠ ".." := by
  have hdot : Text.startsWith "./" ".." = false := by decide
  have hslash : Text.startsWith "../" ".." = false := by decide
  simp only [isRelative, Bool.or_eq_true, beq_iff_eq]
  constructor
  · intro h
    refine ⟨?_, ?_⟩
    · rw [Text.startsWith_iff, Text.startsWith_iff] at h
      rcases h with (h | h) | h
      · exact .inr (.inr (.inl h))
      · exact .inr (.inr (.inr h))
      · exact .inl h
    · rintro rfl
      simp [hdot, hslash] at h
  · rintro ⟨h, hne⟩
    rw [Text.startsWith_iff, Text.startsWith_iff]
    rcases h with h | h | h | h
    · exact .inr h
    · exact absurd h hne
    · exact .inl (.inl h)
    · exact .inl (.inr h)

def candidates (file : Path) (s : String) : List Path :=
  files ((file.parent?.getD ⟨""⟩).join s).normalize

end Specifier

namespace Program

section Sources

variable {sources : List SourceModule} {path : Path}

def Missing (sources : List SourceModule) (path : Path) : Prop :=
  ∀ m ∈ sources, m.path.normalize ≠ path

def LastUnder (sources : List SourceModule) (path : Path) (file : FileId) : Prop :=
  ∃ before m after, sources = before ++ m :: after ∧ before.length = file ∧
    m.path.normalize = path ∧ Missing after path

def Finds (sources : List SourceModule) (candidates : List Path) : Option FileId → Prop
  | some file => ∃ before path after, candidates = before ++ path :: after ∧
      LastUnder sources path file ∧ ∀ c ∈ before, Missing sources c
  | none => ∀ c ∈ candidates, Missing sources c

theorem finds_none {candidates : List Path} :
    Finds sources candidates none ↔ ∀ c ∈ candidates, Missing sources c := Iff.rfl

theorem at?_eq_none_iff : (unlinked sources).at? path = none ↔ Missing sources path := by
  rw [← Option.not_isSome_iff_eq_none, at?_unlinked]
  constructor
  · exact fun h m hm hpath => h ⟨m, hm, hpath⟩
  · rintro h ⟨m, hm, hpath⟩
    exact h m hm hpath

theorem unlinked_concat (sources : List SourceModule) (m : SourceModule) :
    unlinked (sources ++ [m]) = (unlinked sources).addModule (placed m) := by
  rw [unlinked, List.foldl_append]
  rfl

theorem links_unlinked (sources : List SourceModule) : (unlinked sources).links = [] := by
  induction sources using List.reverseRecOn with
  | nil => rfl
  | append_singleton sources m ih =>
    rw [unlinked_concat]
    exact ih

theorem missing_concat {m : SourceModule} :
    Missing (sources ++ [m]) path ↔ Missing sources path ∧ m.path.normalize ≠ path := by
  simp [Missing, or_imp, forall_and]

theorem lastUnder_concat {m : SourceModule} {file : FileId} :
    LastUnder (sources ++ [m]) path file ↔
      if path = m.path.normalize then sources.length = file else LastUnder sources path file := by
  split
  · next heq =>
    constructor
    · rintro ⟨before, m', after, hsources, hlength, -, hmissing⟩
      obtain hnil | ⟨after, last, rfl⟩ := List.eq_nil_or_concat after
      · rw [hnil] at hsources
        rw [(List.append_inj' hsources rfl).1, hlength]
      · rw [List.concat_eq_append] at hsources hmissing
        rw [← List.cons_append, ← List.append_assoc] at hsources
        cases (List.append_inj' hsources rfl).2
        exact absurd heq.symm (missing_concat.1 hmissing).2
    · intro hlength
      exact ⟨sources, m, [], rfl, hlength, heq.symm, List.forall_mem_nil _⟩
  · next hne =>
    constructor
    · rintro ⟨before, m', after, hsources, hlength, hpath, hmissing⟩
      obtain hnil | ⟨after, last, rfl⟩ := List.eq_nil_or_concat after
      · rw [hnil] at hsources
        cases (List.append_inj' hsources rfl).2
        exact absurd hpath.symm hne
      · rw [List.concat_eq_append] at hsources hmissing
        rw [← List.cons_append, ← List.append_assoc] at hsources
        refine ⟨before, m', after, (List.append_inj' hsources rfl).1, hlength, hpath, ?_⟩
        exact (missing_concat.1 hmissing).1
    · rintro ⟨before, m', after, rfl, hlength, hpath, hmissing⟩
      exact ⟨before, m', after ++ [m], by simp, hlength, hpath,
        missing_concat.2 ⟨hmissing, Ne.symm hne⟩⟩

theorem at?_eq_some_iff {file : FileId} :
    (unlinked sources).at? path = some file ↔ LastUnder sources path file := by
  induction sources using List.reverseRecOn with
  | nil =>
    refine iff_of_false (Option.some_ne_none file).symm ?_
    rintro ⟨before, m, after, hnil, -⟩
    simp at hnil
  | append_singleton sources m ih =>
    rw [unlinked_concat, at?_addModule, size_unlinked, lastUnder_concat, ← ih]
    change (if path = m.path.normalize then _ else _) = _ ↔ _
    split
    · exact Option.some_inj
    · rfl

theorem finds_findSome? (candidates : List Path) :
    Finds sources candidates (candidates.findSome? (unlinked sources).at?) := by
  cases hfound : candidates.findSome? (unlinked sources).at? with
  | none =>
    intro c hc
    exact at?_eq_none_iff.1 (List.findSome?_eq_none_iff.1 hfound c hc)
  | some file =>
    obtain ⟨before, path, after, hcandidates, hat, hbefore⟩ := List.findSome?_eq_some_iff.1 hfound
    exact ⟨before, path, after, hcandidates, at?_eq_some_iff.1 hat,
      fun c hc => at?_eq_none_iff.1 (hbefore c hc)⟩

theorem link?_foldl_withLink (target : String → Option FileId) (file i : FileId) (s : String)
    (specifiers : List String) (Q : Program) :
    (specifiers.foldl (fun Q s => Q.withLink file s (target s)) Q).link? i s =
      if i = file ∧ s ∈ specifiers then (target s).or (Q.link? i s) else Q.link? i s := by
  induction specifiers generalizing Q with
  | nil => simp
  | cons first rest ih =>
    have hstep : (Q.withLink file first (target first)).link? i s =
        if i = file ∧ s = first then (target s).or (Q.link? i s) else Q.link? i s := by
      by_cases hs : s = first
      · subst hs
        cases htarget : target s with
        | none => simp [withLink]
        | some t => simp [withLink, link?_addLink]
      · cases htarget : target first with
        | none => simp [withLink, hs]
        | some t => simp [withLink, link?_addLink, hs]
    rw [List.foldl_cons, ih, hstep]
    by_cases hi : i = file
    · by_cases hs : s = first
      · cases target s <;> simp [hi, hs]
      · simp [hi, hs]
    · simp [hi]

theorem link?_foldl_linkAll (i : FileId) (s : String) (files : List FileId) (P : Program) :
    (files.foldl linkAll P).link? i s =
      if i ∈ files ∧ s ∈ (P.moduleAt i).specifiers then
        (P.target? (P.moduleAt i).path s).or (P.link? i s)
      else P.link? i s := by
  induction files generalizing P with
  | nil => simp
  | cons file rest ih =>
    have hsame := sameFiles_linkAll P file
    have hstep := link?_foldl_withLink (P.target? (P.moduleAt file).path) file i s
      (P.moduleAt file).specifiers P
    rw [← linkAll_eq] at hstep
    rw [List.foldl_cons, ih, hsame.moduleAt, target?_of_index hsame.index, hstep]
    by_cases hi : i = file
    · subst hi
      by_cases hs : s ∈ (P.moduleAt i).specifiers
      · cases P.target? (P.moduleAt i).path s <;> simp [hs]
      · simp [hs]
    · simp [hi]

theorem moduleAt_unlinked {file : FileId} {m : SourceModule} (h : sources[file]? = some m) :
    (unlinked sources).moduleAt file = placed m := by
  rw [moduleAt, Array.getD_eq_getD_getElem?, ← Array.getElem?_toList, modules_unlinked,
    List.getElem?_map, h]
  rfl

theorem link?_ofSources {file : FileId} {m : SourceModule} (h : sources[file]? = some m)
    {s : String} (hs : s ∈ m.specifiers) :
    (ofSources sources).link? file s = (unlinked sources).target? m.path.normalize s := by
  have hfile : file < (unlinked sources).size := by
    rw [size_unlinked]
    exact (List.getElem?_eq_some_iff.1 h).1
  have hnone : (unlinked sources).link? file s = none := by
    rw [link?, links_unlinked]
    rfl
  rw [ofSources_eq, link?_foldl_linkAll, moduleAt_unlinked h,
    if_pos ⟨List.mem_range.2 hfile, hs⟩, hnone, Option.or_none]
  rfl

theorem target?_eq (P : Program) (importer : Path) (s : String) :
    P.target? importer s = if Specifier.isRelative s then
      (Specifier.candidates importer s).findSome? P.at? else none := by
  rw [target?, Specifier.base?, Specifier.candidates]
  split
  · exact Option.bind_some ..
  · exact Option.bind_none ..

/-- A relative name leads to what is found among its candidates, unless it is the bare name of the
directory above. That name always leads nowhere, which is right only if no candidate is there. -/
theorem relative_import_iff {file : FileId} {m : SourceModule} (hm : sources[file]? = some m)
    {s : String} (hs : s ∈ m.specifiers) (hrelative : Specifier.IsRelativeName s) :
    (Finds sources (Specifier.candidates m.path.normalize s) ((ofSources sources).link? file s) ↔
      (s = ".." → ∀ c ∈ Specifier.candidates m.path.normalize s, Missing sources c)) ∧
    (s = ".." → (ofSources sources).link? file s = none) := by
  rw [link?_ofSources hm hs, target?_eq]
  generalize Specifier.candidates m.path.normalize s = candidates
  by_cases hparent : s = ".."
  · have hexternal : ¬ Specifier.isRelative s = true := fun h =>
      (Specifier.isRelative_iff.1 h).2 hparent
    rw [if_neg hexternal, finds_none]
    exact ⟨⟨fun h _ => h, fun h => h hparent⟩, fun _ => rfl⟩
  · rw [if_pos (Specifier.isRelative_iff.2 ⟨hrelative, hparent⟩)]
    exact ⟨iff_of_true (finds_findSome? _) fun h => absurd h hparent, fun h => absurd h hparent⟩

end Sources

namespace NestedImports

def card : SourceModule :=
  moduleOf "src/./ui/Card.tsx" [SourceLine.namedImport ⟨1, 0, 1⟩ "Size" "../types.js",
    SourceLine.namedImport ⟨14, 35, 2⟩ "Color" ".."]

def sources : List SourceModule := [
  moduleOf "src/index.ts" [SourceLine.nameAlias ⟨1, 0, 1⟩ "Color" "Paint"],
  card,
  moduleOf "src/types.ts" [SourceLine.nameAlias ⟨1, 0, 1⟩ "Size" "Small"],
  moduleOf "src/ui/../types.ts" [SourceLine.nameAlias ⟨1, 0, 1⟩ "Size" "Large"]]

theorem relative_import_types :
    "../types.js" ∈ card.specifiers ∧ (ofSources sources).link? 1 "../types.js" = some 3 ∧
      Finds sources (Specifier.candidates card.path.normalize "../types.js") (some 3) := by
  have hs : "../types.js" ∈ card.specifiers := by decide +kernel
  have hlink : (ofSources sources).link? 1 "../types.js" = some 3 := by decide +kernel
  have hcard : sources[1]? = some card := rfl
  have hrelative : Specifier.IsRelativeName "../types.js" := .inr (.inr (.inr ⟨"types.js", rfl⟩))
  have hfinds := (relative_import_iff hcard hs hrelative).1.2 fun h => absurd h (by decide)
  rw [hlink] at hfinds
  exact ⟨hs, hlink, hfinds⟩

/-- The bare name leads nowhere, although the index of the directory above is a source. -/
theorem parent_import_unresolved :
    ".." ∈ card.specifiers ∧ Specifier.IsRelativeName ".." ∧
      (ofSources sources).link? 1 ".." = none ∧
      ⟨"src/index.ts"⟩ ∈ Specifier.candidates card.path.normalize ".." ∧
      LastUnder sources ⟨"src/index.ts"⟩ 0 ∧
      ¬ Finds sources (Specifier.candidates card.path.normalize "..")
        ((ofSources sources).link? 1 "..") := by
  have hs : ".." ∈ card.specifiers := by decide +kernel
  have hrelative : Specifier.IsRelativeName ".." := .inr (.inl rfl)
  have hlink : (ofSources sources).link? 1 ".." = none := by decide +kernel
  have hcandidate : ⟨"src/index.ts"⟩ ∈ Specifier.candidates card.path.normalize ".." := by
    decide +kernel
  have hindex : Path.normalize ⟨"src/index.ts"⟩ = ⟨"src/index.ts"⟩ := by decide +kernel
  have hothers : card.path.normalize ≠ ⟨"src/index.ts"⟩ ∧
      Path.normalize ⟨"src/types.ts"⟩ ≠ ⟨"src/index.ts"⟩ ∧
      Path.normalize ⟨"src/ui/../types.ts"⟩ ≠ ⟨"src/index.ts"⟩ := by
    decide +kernel
  have hlast : LastUnder sources ⟨"src/index.ts"⟩ 0 := by
    refine ⟨[], _, _, rfl, rfl, hindex, ?_⟩
    simp only [Missing, List.forall_mem_cons, List.not_mem_nil, false_implies, implies_true,
      and_true]
    exact hothers
  refine ⟨hs, hrelative, hlink, hcandidate, hlast, ?_⟩
  rw [hlink, finds_none]
  intro hmissing
  exact hmissing _ hcandidate _ List.mem_cons_self hindex

end NestedImports

end Program

end PropSchema
