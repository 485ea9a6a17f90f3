import Mathlib.Data.List.ProdSigma
import Mathlib.Data.List.Nodup
import Mathlib.Data.List.Perm.Subperm
import PropSchema.Disk.Basic
import PropSchema.Proofs.Path.Normal

namespace PropSchema

namespace FileTree

inductive Leads : FileTree → List FileName → FileTree → Prop
  | here {t} : Leads t [] t
  | entry {entries name t names t'} : (name, t) ∈ entries → Leads t names t' →
    Leads (.directory entries) (name :: names) t'

theorem leads_of_get? {t t' : FileTree} {names : List FileName} (h : t.get? names = some t') :
    t.Leads names t' := by
  induction names generalizing t with
  | nil =>
    cases h
    exact .here
  | cons name names ih =>
    simp only [get?, Option.bind_eq_bind, Option.bind_eq_some_iff] at h
    obtain ⟨child, hchild, h⟩ := h
    cases t with
    | file f => cases hchild
    | directory entries =>
      obtain ⟨before, after, hentries, -⟩ := List.lookup_eq_some_iff.1 hchild
      have hmem : (name, child) ∈ entries := by
        rw [show entries = _ from hentries]
        exact List.mem_append_right _ List.mem_cons_self
      exact .entry hmem (ih h)

theorem get?_append (t : FileTree) (names rest : List FileName) :
    t.get? (names ++ rest) = (t.get? names).bind (·.get? rest) := by
  induction names generalizing t with
  | nil => rfl
  | cons name names ih => cases h : t.child? name <;> simp [get?, h, ih]

mutual

def filePlaces : FileTree → List (List FileName)
  | .file _ => [[]]
  | .directory entries => filePlacesAll entries

def filePlacesAll : List (FileName × FileTree) → List (List FileName)
  | [] => []
  | (name, t) :: rest => t.filePlaces.map (name :: ·) ++ filePlacesAll rest

end

mutual

theorem length_filePlaces : ∀ t : FileTree, t.filePlaces.length = t.size
  | .file _ => rfl
  | .directory entries => length_filePlacesAll entries

theorem length_filePlacesAll : ∀ entries : List (FileName × FileTree),
    (filePlacesAll entries).length = sizeAll entries
  | [] => rfl
  | (name, t) :: rest => by
    rw [filePlacesAll, sizeAll, List.length_append, List.length_map, length_filePlaces t,
      length_filePlacesAll rest]

end

theorem mem_filePlacesAll {entries : List (FileName × FileTree)} {name : FileName} {t : FileTree}
    {names : List FileName} (h : (name, t) ∈ entries) (hnames : names ∈ t.filePlaces) :
    name :: names ∈ filePlacesAll entries := by
  induction entries with
  | nil => cases h
  | cons first rest ih =>
    rw [filePlacesAll, List.mem_append]
    cases h with
    | head => exact .inl (List.mem_map_of_mem hnames)
    | tail _ h => exact .inr (ih h)

theorem Leads.mem_filePlaces {t : FileTree} {names : List FileName} {f : File}
    (h : t.Leads names (.file f)) : names ∈ t.filePlaces := by
  generalize hfile : FileTree.file f = t' at h
  induction h with
  | here =>
    subst hfile
    exact List.mem_singleton_self _
  | entry hmem _ ih => exact mem_filePlacesAll hmem (ih hfile)

end FileTree

namespace Disk

def moved (place : List FileName) : Component → List FileName
  | .parent => place.dropLast
  | c => place ++ c.fileName?.toList

theorem step_eq {root : FileTree} {place place' : List FileName} {segment : List Char}
    (h : step root place segment = some place') :
    place' = (Path.component? segment).elim place (moved place) := by
  obtain ⟨t, -, h⟩ := Option.bind_eq_some_iff.1 h
  obtain ⟨-, -, h⟩ := Option.bind_eq_some_iff.1 h
  cases hsegment : Path.component? segment with
  | none =>
    rw [hsegment] at h
    cases h
    rfl
  | some c =>
    rw [hsegment] at h
    cases c with
    | root | current =>
      cases h
      exact (List.append_nil place).symm
    | parent =>
      cases h
      rfl
    | normal name =>
      obtain ⟨name, hname, h⟩ := Option.bind_eq_some_iff.1 h
      obtain ⟨-, -, rfl⟩ := Option.map_eq_some_iff.1 h
      simp [moved, Component.fileName?, hname]

theorem follow?_eq {d : Disk} {place place' : List FileName} {segments : List (List Char)}
    (h : d.follow? place segments = some place') :
    place' = (segments.filterMap Path.component?).foldl moved place := by
  induction segments generalizing place with
  | nil => exact (Option.some.inj h).symm
  | cons segment segments ih =>
    rw [follow?, List.foldlM_cons] at h
    obtain ⟨next, hnext, h⟩ := Option.bind_eq_some_iff.1 h
    have hstep := step_eq hnext
    rw [ih h, hstep]
    cases hc : Path.component? segment with
    | none => rw [List.filterMap_cons_none hc]; rfl
    | some c => rw [List.filterMap_cons_some hc]; rfl

theorem foldl_moved_parents (place : List FileName) (n : Nat) :
    (List.replicate n Component.parent).foldl moved place = place.take (place.length - n) := by
  induction n generalizing place with
  | zero => simp
  | succ n ih =>
    rw [List.replicate_succ, List.foldl_cons, moved, ih, List.dropLast_eq_take, List.take_take,
      List.length_take]
    congr 1
    omega

theorem foldl_moved_names (place names : List FileName) :
    (names.map (Component.normal ·.text)).foldl moved place = place ++ names := by
  induction names generalizing place with
  | nil => simp
  | cons name names ih =>
    have hmoved : moved place (.normal name.text) = place ++ [name] := by
      rw [moved, Component.fileName?, name.ofText?_text]
      · rfl
      · rintro ⟨⟩
    rw [List.map_cons, List.foldl_cons, hmoved, ih, List.append_assoc]
    rfl

theorem place?_path {d : Disk} {q : NormalPath} {place : List FileName}
    (h : d.place? q.path = some place) :
    place = (d.start q.path).take ((d.start q.path).length - q.parents) ++ q.names := by
  rw [place?] at h
  split at h
  · rw [follow?_eq h, q.filterMap_segments_path, NormalPath.body, List.foldl_append,
      foldl_moved_parents, foldl_moved_names]
  · cases h

theorem exists_place {d : Disk} {p : Path} (h : d.isFile p = true) :
    ∃ place f, d.place? p = some place ∧ d.root.get? place = some (.file f) ∧ p.isValid = true := by
  rw [isFile, Option.isSome_iff_exists] at h
  obtain ⟨f, hf⟩ := h
  obtain ⟨t, ht, hf⟩ := Option.bind_eq_some_iff.1 hf
  obtain ⟨place, hplace, ht⟩ := Option.bind_eq_some_iff.1 ht
  have hvalid : p.isValid = true := by
    rw [place?] at hplace
    by_contra hinvalid
    rw [if_neg hinvalid] at hplace
    cases hplace
  cases t with
  | file f => exact ⟨place, f, hplace, ht, hvalid⟩
  | directory entries => cases hf

def approach (d : Disk) (p : Path) : List FileName × Bool × Nat :=
  ((d.place? p).getD [], p.isAbsolute, p.components.count .parent)

theorem eq_of_approach {d : Disk} {p p' : Path} (hp : p.IsNormal) (hp' : p'.IsNormal)
    (hfile : d.isFile p = true) (hfile' : d.isFile p' = true)
    (h : d.approach p = d.approach p') : p = p' := by
  obtain ⟨q, -, rfl⟩ := hp.exists_path
  obtain ⟨q', -, rfl⟩ := hp'.exists_path
  obtain ⟨place, -, hplace, -⟩ := exists_place hfile
  obtain ⟨place', -, hplace', -⟩ := exists_place hfile'
  simp only [approach, hplace, hplace', Option.getD_some, Prod.mk.injEq,
    NormalPath.isAbsolute_path, NormalPath.components_path,
    NormalPath.count_parent_components] at h
  obtain ⟨rfl, habsolute, hparents⟩ := h
  have hnames : q.names = q'.names := by
    have hplaces := (place?_path hplace).symm.trans (place?_path hplace')
    rw [start, start, NormalPath.isAbsolute_path, NormalPath.isAbsolute_path, habsolute,
      hparents] at hplaces
    exact List.append_cancel_left hplaces
  cases q
  cases q'
  simp_all

theorem approach_mem {d : Disk} {p : Path} (hp : p.IsNormal) (hfile : d.isFile p = true) :
    d.approach p ∈ d.root.filePlaces ×ˢ [true, false] ×ˢ List.range (Path.maxLength + 1) := by
  obtain ⟨q, -, rfl⟩ := hp.exists_path
  obtain ⟨place, f, hplace, hget, hvalid⟩ := exists_place hfile
  have hsize : q.path.text.utf8ByteSize ≤ Path.maxLength := by
    simp only [Path.isValid, Bool.and_eq_true, decide_eq_true_eq] at hvalid
    exact hvalid.1.2
  have hparents := q.parents_le_utf8ByteSize
  simp only [approach, hplace, Option.getD_some, NormalPath.isAbsolute_path,
    NormalPath.components_path, NormalPath.count_parent_components, List.mem_product,
    List.mem_range]
  refine ⟨(FileTree.leads_of_get? hget).mem_filePlaces, ?_, by omega⟩
  cases q.absolute <;> decide

end Disk

def FileView.Bounded (v : FileView) : Prop :=
  ∀ paths : List Path, paths.Nodup → (∀ p ∈ paths, p.IsNormal ∧ v.isFile p = true) →
    paths.length ≤ v.bound

theorem Disk.bounded_view (d : Disk) : d.view.Bounded := by
  intro paths hnodup hpaths
  have hmap : (paths.map d.approach).Nodup := by
    refine hnodup.map_on ?_
    intro p hp p' hp' h
    exact eq_of_approach (hpaths p hp).1 (hpaths p' hp').1 (hpaths p hp).2 (hpaths p' hp').2 h
  have hsubset : paths.map d.approach ⊆
      d.root.filePlaces ×ˢ [true, false] ×ˢ List.range (Path.maxLength + 1) := by
    intro key hkey
    obtain ⟨p, hp, rfl⟩ := List.mem_map.1 hkey
    exact approach_mem (hpaths p hp).1 (hpaths p hp).2
  calc paths.length
    _ = (paths.map d.approach).length := (List.length_map _).symm
    _ ≤ (d.root.filePlaces ×ˢ [true, false] ×ˢ List.range (Path.maxLength + 1)).length :=
      (List.subperm_of_subset hmap hsubset).length_le
    _ = d.view.bound := by
      rw [List.length_product, List.length_product, List.length_range, FileTree.length_filePlaces]
      rfl

end PropSchema
