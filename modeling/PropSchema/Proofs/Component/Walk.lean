import PropSchema.Component.Walk
import PropSchema.Proofs.Disk.Places

namespace PropSchema

namespace NormalPath

def descend (q : NormalPath) (names : List FileName) : NormalPath :=
  { q with names := q.names ++ names }

theorem descend_nil (q : NormalPath) : q.descend [] = q := by rw [descend, List.append_nil]

theorem descend_cons (q : NormalPath) (name : FileName) (names : List FileName) :
    q.descend (name :: names) = (q.push name).descend names := by
  simp [descend, push]

theorem components_descend (q : NormalPath) (names : List FileName) :
    (q.descend names).components = q.components ++ names.map (.normal ·.text) := by
  simp [components, body, descend]

theorem package_mem_descend {q : NormalPath} {names : List FileName} :
    .normal packageDirectory ∈ (q.descend names).components ↔
      .normal packageDirectory ∈ q.components ∨ ∃ name ∈ names, name.text = packageDirectory := by
  rw [components_descend, List.mem_append, List.mem_map]
  simp only [Component.normal.injEq]

theorem foldl_join (q : NormalPath) (names : List FileName) :
    names.foldl (fun p name => p.join name.text) q.path = (q.descend names).path := by
  induction names generalizing q with
  | nil => rw [descend_nil]; rfl
  | cons name names ih => rw [List.foldl_cons, join_path, ih, descend_cons]

theorem isBelow_path {q q' : NormalPath} (h : q'.absolute = q.absolute)
    (hparents : q'.parents = q.parents) :
    q'.path.isBelow q.path = true ↔ ∃ names, q' = q.descend names := by
  rw [Path.isBelow, Path.below?, components_path, components_path, Option.isSome_iff_exists]
  simp only [List.isPrefixOf?_eq_some_iff_append_eq]
  constructor
  · rintro ⟨rest, hrest⟩
    rw [components, components, body, body, h, hparents, List.append_assoc, List.append_assoc,
      List.append_cancel_left_eq, List.append_cancel_left_eq, eq_comm, List.map_eq_append_iff] at hrest
    obtain ⟨names, below, hnames, hmap, -⟩ := hrest
    have heq : names = q.names := by
      refine List.map_injective_iff.2 ?_ hmap
      rintro ⟨text, _⟩ ⟨text', _⟩ htext
      simpa using htext
    refine ⟨below, ?_⟩
    cases q'
    simp_all [descend]
  · rintro ⟨names, rfl⟩
    exact ⟨_, (components_descend q names).symm⟩

end NormalPath

namespace FileTree

def Visits (t : FileTree) (names : List FileName) (t' : FileTree) : Prop :=
  t.Leads names t' ∧ ∀ name ∈ names, name.text ≠ packageDirectory

def VisitsAll (entries : List (FileName × FileTree)) (names : List FileName) (t' : FileTree) :
    Prop :=
  ∃ name t rest, names = name :: rest ∧ (name, t) ∈ entries ∧ name.text ≠ packageDirectory ∧
    t.Visits rest t'

theorem visits_file {f : File} {names : List FileName} {t : FileTree} :
    (FileTree.file f).Visits names t ↔ names = [] ∧ t = .file f := by
  constructor
  · rintro ⟨⟨⟩, -⟩
    exact ⟨rfl, rfl⟩
  · rintro ⟨rfl, rfl⟩
    exact ⟨.here, nofun⟩

theorem visits_directory {entries : List (FileName × FileTree)} {names : List FileName}
    {t : FileTree} : (FileTree.directory entries).Visits names t ↔
      (names = [] ∧ t = .directory entries) ∨ VisitsAll entries names t := by
  constructor
  · rintro ⟨_ | ⟨hmem, hleads⟩, hnames⟩
    · exact .inl ⟨rfl, rfl⟩
    · rw [List.forall_mem_cons] at hnames
      exact .inr ⟨_, _, _, rfl, hmem, hnames.1, hleads, hnames.2⟩
  · rintro (⟨rfl, rfl⟩ | ⟨name, t, rest, rfl, hmem, hname, hleads, hrest⟩)
    · exact ⟨.here, nofun⟩
    · exact ⟨.entry hmem hleads, List.forall_mem_cons.2 ⟨hname, hrest⟩⟩

theorem visitsAll_cons {name : FileName} {t t' : FileTree} {rest : List (FileName × FileTree)}
    {names : List FileName} : VisitsAll ((name, t) :: rest) names t' ↔
      (∃ below, names = name :: below ∧ name.text ≠ packageDirectory ∧ t.Visits below t') ∨
        VisitsAll rest names t' := by
  constructor
  · rintro ⟨name', t'', below, rfl, hmem, hname, hvisits⟩
    cases hmem with
    | head => exact .inl ⟨below, rfl, hname, hvisits⟩
    | tail _ hmem => exact .inr ⟨name', t'', below, rfl, hmem, hname, hvisits⟩
  · rintro (⟨below, rfl, hname, hvisits⟩ | ⟨name', t'', below, rfl, hmem, hname, hvisits⟩)
    · exact ⟨name, t, below, rfl, List.mem_cons_self, hname, hvisits⟩
    · exact ⟨name', t'', below, rfl, List.mem_cons_of_mem _ hmem, hname, hvisits⟩

/-- What a walk from a path gives, if this is what it comes to: the files, or nothing if it comes to
a directory that is too far away. -/
def Walked (q : NormalPath) (visits : List FileName → FileTree → Prop) :
    Option (List Path) → Prop
  | some files =>
    (∀ p, p ∈ files ↔
      ∃ names f, visits names (.file f) ∧ (q.descend names).path = p ∧ p.isValid = true) ∧
    ∀ names entries, visits names (.directory entries) → (q.descend names).path.isValid = true
  | none => ∃ names entries,
    visits names (.directory entries) ∧ (q.descend names).path.isValid = false

namespace Walked

variable {q : NormalPath} {visits visits' : List FileName → FileTree → Prop}
  {files files' : Option (List Path)}

theorem nothing : Walked q (fun _ _ => False) (some []) :=
  ⟨fun _ => ⟨nofun, nofun⟩, nofun⟩

theorem union (h : Walked q visits files) (h' : Walked q visits' files') :
    Walked q (fun names t => visits names t ∨ visits' names t)
      (files.bind fun found => files'.map (found ++ ·)) := by
  cases files with
  | none =>
    obtain ⟨names, entries, hvisits, hfar⟩ := h
    exact ⟨names, entries, .inl hvisits, hfar⟩
  | some found =>
    cases files' with
    | none =>
      obtain ⟨names, entries, hvisits, hfar⟩ := h'
      exact ⟨names, entries, .inr hvisits, hfar⟩
    | some found' =>
      refine ⟨fun p => ?_, fun names entries hvisits => ?_⟩
      · rw [List.mem_append, h.1, h'.1]
        simp only [or_and_right, exists_or]
      · exact hvisits.elim (h.2 names entries) (h'.2 names entries)

theorem push {name : FileName} (h : Walked (q.push name) visits files) :
    Walked q (fun names t => ∃ below, names = name :: below ∧ visits below t) files := by
  cases files with
  | none =>
    obtain ⟨names, entries, hvisits, hfar⟩ := h
    rw [← NormalPath.descend_cons] at hfar
    exact ⟨name :: names, entries, ⟨names, rfl, hvisits⟩, hfar⟩
  | some found =>
    refine ⟨fun p => ?_, ?_⟩
    · rw [h.1]
      constructor
      · rintro ⟨names, f, hvisits, hpath, hvalid⟩
        rw [← NormalPath.descend_cons] at hpath
        exact ⟨name :: names, f, ⟨names, rfl, hvisits⟩, hpath, hvalid⟩
      · rintro ⟨-, f, ⟨names, rfl, hvisits⟩, hpath, hvalid⟩
        rw [NormalPath.descend_cons] at hpath
        exact ⟨names, f, hvisits, hpath, hvalid⟩
    · rintro - entries ⟨names, rfl, hvisits⟩
      rw [NormalPath.descend_cons]
      exact h.2 names entries hvisits

theorem here {entries : List (FileName × FileTree)} (hvalid : q.path.isValid = true)
    (h : Walked q visits files) :
    Walked q (fun names t => (names = [] ∧ t = .directory entries) ∨ visits names t) files := by
  cases files with
  | none =>
    obtain ⟨names, entries, hvisits, hfar⟩ := h
    exact ⟨names, entries, .inr hvisits, hfar⟩
  | some found =>
    refine ⟨fun p => ?_, ?_⟩
    · simp [h.1]
    · rintro names entries' (⟨rfl, -⟩ | hvisits)
      · rwa [NormalPath.descend_nil]
      · exact h.2 names entries' hvisits

theorem congr (h : Walked q visits files) (hvisits : ∀ names t, visits' names t ↔ visits names t) :
    Walked q visits' files := by
  have heq : visits' = visits := funext₂ fun names t => propext (hvisits names t)
  rwa [heq]

end Walked

theorem walkAll_cons (path : Path) (name : FileName) (t : FileTree)
    (rest : List (FileName × FileTree)) :
    walkAll path ((name, t) :: rest) =
      (if name.text = packageDirectory then some [] else t.walk (path.join name.text)).bind
        fun files => (walkAll path rest).map (files ++ ·) := by
  rw [walkAll]
  split <;> cases walkAll path rest <;> rfl

mutual

theorem walked_walk (q : NormalPath) : ∀ t : FileTree, Walked q t.Visits (t.walk q.path)
  | .file f => by
    rw [walk]
    refine ⟨fun p => ?_, fun names entries hvisits => ?_⟩
    · constructor
      · intro hp
        split at hp
        · next hvalid =>
          cases List.mem_singleton.1 hp
          exact ⟨[], f, ⟨.here, nofun⟩, by rw [NormalPath.descend_nil], hvalid⟩
        · cases hp
      · rintro ⟨names, f', hvisits, rfl, hvalid⟩
        obtain ⟨rfl, -⟩ := visits_file.1 hvisits
        rw [NormalPath.descend_nil] at hvalid ⊢
        rw [if_pos hvalid]
        exact List.mem_singleton_self _
    · cases (visits_file.1 hvisits).2
  | .directory entries => by
    rw [walk]
    split
    · next hvalid =>
      exact ((walked_walkAll q entries).here hvalid).congr fun _ _ => visits_directory
    · next hfar =>
      refine ⟨[], entries, ⟨.here, nofun⟩, ?_⟩
      rw [NormalPath.descend_nil]
      exact Bool.not_eq_true _ ▸ hfar

theorem walked_walkAll (q : NormalPath) : ∀ entries : List (FileName × FileTree),
    Walked q (VisitsAll entries) (walkAll q.path entries)
  | [] => Walked.nothing.congr fun names t => by simp [VisitsAll]
  | (name, t) :: rest => by
    have hfirst : Walked q (fun names t' =>
        ∃ below, names = name :: below ∧ name.text ≠ packageDirectory ∧ t.Visits below t')
        (if name.text = packageDirectory then some [] else t.walk (q.path.join name.text)) := by
      split
      · next hname => exact Walked.nothing.congr fun names t' => by simp [hname]
      · next hname =>
        rw [q.join_path]
        exact (walked_walk (q.push name) t).push.congr fun names t' => by simp [hname]
    rw [walkAll_cons]
    exact (hfirst.union (walked_walkAll q rest)).congr fun _ _ => visitsAll_cons

end

end FileTree

namespace Disk

variable {d : Disk} {q q' : NormalPath} {t : FileTree} {patterns : List Glob.Pattern}

theorem get?_of_node? (h : q.absolute = true) (hnode : d.node? q.path = some t) :
    d.root.get? q.names = some t := by
  obtain ⟨place, hplace, ht⟩ := Option.bind_eq_some_iff.1 hnode
  have heq := place?_path hplace
  rw [start, q.isAbsolute_path, h, if_pos rfl, List.take_nil, List.nil_append] at heq
  rwa [← heq]

theorem componentFiles_path (h : q.absolute = true) (hnode : d.node? q.path = some t) :
    d.componentFiles q.path patterns = (t.walk q.path).elim (.error (.unreadableDirectory q.path))
      fun files => .ok (files.filter fun p => p.isComponentFile && ! p.isExcluded patterns) := by
  have hinput : q.path.isStandardInput = false := by
    rw [Path.isStandardInput, q.components_path, NormalPath.components, h]
    rfl
  rw [componentFiles, hinput, hnode, if_neg Bool.false_ne_true, Option.bind_some]
  cases t.walk q.path <;> rfl

theorem exists_componentFiles (h : q.absolute = true) (hnode : d.node? q.path = some t) :
    (∃ files, d.componentFiles q.path patterns = .ok files) ↔
      ∀ names entries, t.Visits names (.directory entries) →
        (q.descend names).path.isValid = true := by
  have hwalked := t.walked_walk q
  rw [componentFiles_path h hnode]
  cases hfiles : t.walk q.path with
  | none =>
    rw [hfiles] at hwalked
    obtain ⟨names, entries, hvisits, hfar⟩ := hwalked
    refine iff_of_false nofun fun hnear => ?_
    rw [hnear names entries hvisits] at hfar
    cases hfar
  | some files =>
    rw [hfiles] at hwalked
    exact iff_of_true ⟨_, rfl⟩ hwalked.2

theorem mem_componentFiles (h : q.absolute = true) (h' : q'.absolute = true)
    (hnode : d.node? q.path = some t) (hfile : d.isFile q'.path = true) {files : List Path}
    (hfiles : d.componentFiles q.path patterns = .ok files) :
    q'.path ∈ files ↔ q'.path.isComponentFile = true ∧ q'.path.isExcluded patterns = false ∧
      ∃ names, q' = q.descend names ∧ ∀ name ∈ names, name.text ≠ packageDirectory := by
  have hwalked := t.walked_walk q
  rw [componentFiles_path h hnode] at hfiles
  cases hfound : t.walk q.path with
  | none =>
    rw [hfound] at hfiles
    cases hfiles
  | some found =>
    rw [hfound] at hfiles hwalked
    cases hfiles
    rw [List.mem_filter, hwalked.1, Bool.and_eq_true, Bool.not_eq_true', and_comm, and_assoc]
    refine and_congr_right fun _ => and_congr_right fun _ => ?_
    constructor
    · rintro ⟨names, f, ⟨-, hnames⟩, hpath, -⟩
      exact ⟨names, (NormalPath.path_injective hpath).symm, hnames⟩
    · rintro ⟨names, rfl, hnames⟩
      -- What the disk has at the path is what the walk comes to below the root.
      obtain ⟨place, f, hplace, hget, hvalid⟩ := exists_place hfile
      have hnode' : d.node? (q.descend names).path = some (.file f) :=
        Option.bind_eq_some_iff.2 ⟨place, hplace, hget⟩
      have hbelow : t.get? names = some (.file f) := by
        have hall := get?_of_node? h' hnode'
        rw [NormalPath.descend, FileTree.get?_append, get?_of_node? h hnode] at hall
        exact hall
      exact ⟨names, f, ⟨FileTree.leads_of_get? hbelow, hnames⟩, rfl, hvalid⟩

theorem isComponentFile_of_mem {root p : Path} (hroot : root.IsNormal) {files : List Path}
    (hfiles : d.componentFiles root patterns = .ok files) (hp : p ∈ files) :
    p.IsNormal ∧ p.isComponentFile = true := by
  obtain ⟨q, -, rfl⟩ := hroot.exists_path
  rw [componentFiles] at hfiles
  split at hfiles
  · cases hfiles
    cases hp
  · split at hfiles
    · next found hfound =>
      obtain ⟨t, -, hwalk⟩ := Option.bind_eq_some_iff.1 hfound
      have hwalked := t.walked_walk q
      rw [hwalk] at hwalked
      cases hfiles
      rw [List.mem_filter, hwalked.1, Bool.and_eq_true] at hp
      obtain ⟨⟨names, f, -, rfl, -⟩, hcomponent, -⟩ := hp
      exact ⟨NormalPath.normalize_path _, hcomponent⟩
    · cases hfiles

/-- A walk succeeds unless it comes to a directory that is too far away. A file that it finds is
watched exactly if the root lies in no package, and a watched file is found unless its path climbs
higher than the root does, as it can at the top of the disk. -/
theorem isWatched_iff_mem_walk {root : Path} (hnormal : root.IsNormal)
    (habsolute : root.isAbsolute = true) (hnode : d.node? root = some t)
    (patterns : List Glob.Pattern) :
    ((∃ files, d.componentFiles root patterns = .ok files) ↔
      ∀ names entries, t.Visits names (.directory entries) →
        (names.foldl (fun p name => p.join name.text) root).isValid = true) ∧
    ∀ files, d.componentFiles root patterns = .ok files →
      ∀ p : Path, p.IsNormal → p.isAbsolute = true → d.isFile p = true →
        ((p.isWatched root patterns = true ∧
            p.components.count .parent = root.components.count .parent) ↔
          p ∈ files ∧ .normal packageDirectory ∉ root.components) ∧
        (p ∈ files → p.components.count .parent = root.components.count .parent) := by
  obtain ⟨q, hq, rfl⟩ := hnormal.exists_path
  rw [habsolute] at hq
  refine ⟨?_, ?_⟩
  · simp only [q.foldl_join]
    exact exists_componentFiles hq hnode
  · intro files hfiles p hp habsolute' hfile
    obtain ⟨q', hq', rfl⟩ := hp.exists_path
    rw [habsolute'] at hq'
    rw [mem_componentFiles hq hq' hnode hfile hfiles]
    simp only [Path.isWatched, NormalPath.components_path, NormalPath.count_parent_components,
      Bool.and_eq_true, Bool.not_eq_true', List.contains_eq_mem, decide_eq_false_iff_not]
    constructor
    · constructor
      · rintro ⟨⟨⟨⟨hbelow, hcomponent⟩, hpackage⟩, hexcluded⟩, hparents⟩
        obtain ⟨names, rfl⟩ := (NormalPath.isBelow_path (hq'.trans hq.symm) hparents).1 hbelow
        rw [NormalPath.package_mem_descend, not_or] at hpackage
        exact ⟨⟨hcomponent, hexcluded, names, rfl, fun name hmem heq =>
          hpackage.2 ⟨name, hmem, heq⟩⟩, hpackage.1⟩
      · rintro ⟨⟨hcomponent, hexcluded, names, rfl, hnames⟩, hroot⟩
        have hbelow := (NormalPath.isBelow_path (hq'.trans hq.symm) rfl).2 ⟨names, rfl⟩
        refine ⟨⟨⟨⟨hbelow, hcomponent⟩, ?_⟩, hexcluded⟩, rfl⟩
        rw [NormalPath.package_mem_descend, not_or]
        exact ⟨hroot, fun ⟨name, hmem, heq⟩ => hnames name hmem heq⟩
    · rintro ⟨-, -, names, rfl, -⟩
      rfl

def shelf : Disk where
  root := .directory [
    (⟨"Panel.tsx", by decide⟩, .file ⟨some "", .empty⟩),
    (⟨"node_modules", by decide⟩, .directory [(⟨"Grid.tsx", by decide⟩, .file ⟨some "", .empty⟩)])]

theorem isWatched_iff_mem_walk_panel : shelf.componentFiles ⟨"/"⟩ [] = .ok [⟨"/Panel.tsx"⟩] ∧
    Path.isWatched ⟨"/Panel.tsx"⟩ ⟨"/"⟩ [] = true := by
  have hfiles : shelf.componentFiles ⟨"/"⟩ [] = .ok [⟨"/Panel.tsx"⟩] := by rfl
  have hall := isWatched_iff_mem_walk (show Path.IsNormal ⟨"/"⟩ by decide +kernel)
    (by decide +kernel) (show shelf.node? ⟨"/"⟩ = some shelf.root by rfl) []
  have hpanel := hall.2 _ hfiles ⟨"/Panel.tsx"⟩ (by decide +kernel) (by decide +kernel)
    (by decide +kernel)
  exact ⟨hfiles, (hpanel.1.2 ⟨List.mem_singleton_self _, by decide +kernel⟩).1⟩

/-- The root lies in a package: the walk finds the component, but it is not watched. -/
theorem not_isWatched_of_mem_walk :
    let root : Path := ⟨"/node_modules"⟩
    let p : Path := ⟨"/node_modules/Grid.tsx"⟩
    (root.IsNormal ∧ root.isAbsolute = true ∧ (shelf.node? root).any (·.isDirectory) = true) ∧
      (p.IsNormal ∧ p.isAbsolute = true ∧ shelf.isFile p = true) ∧
      shelf.componentFiles root [] = .ok [p] ∧ p.isWatched root [] = false := by
  decide +kernel

end Disk

end PropSchema
