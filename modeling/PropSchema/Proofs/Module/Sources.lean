import PropSchema.Proofs.Module.Loading

namespace PropSchema

theorem findSome?_eq_bind_find? {α β : Type} {l : List α} {f : α → Option β} {p : α → Bool}
    (hp : ∀ a, (f a).isSome → p a = true) (hf : ∀ a, l.find? p = some a → (f a).isSome) :
    l.findSome? f = (l.find? p).bind f := by
  induction l with
  | nil => rfl
  | cons a l ih =>
    cases ha : p a with
    | true =>
      rw [List.find?_cons_of_pos ha] at hf ⊢
      obtain ⟨b, hb⟩ := Option.isSome_iff_exists.1 (hf a rfl)
      rw [Option.bind_some, List.findSome?_cons, hb]
    | false =>
      have hnone : f a = none := Option.not_isSome_iff_eq_none.1 fun hsome => by
        rw [hp a hsome] at ha
        cases ha
      rw [List.find?_cons_of_neg (by rw [ha]; exact Bool.false_ne_true)] at hf ⊢
      rw [List.findSome?_cons, hnone]
      exact ih hf

namespace FileView

variable {v : FileView} {o : CompilerOptions}

theorem module?_eq (hbase : o.baseUrl = none) (hpaths : o.paths = []) (importer : Path)
    (specifier : String) : v.module? o importer specifier =
      (Specifier.base? importer specifier).bind fun base =>
        (Specifier.files base).find? v.isFile := by
  rw [module?]
  cases Specifier.base? importer specifier with
  | none => simp [CompilerOptions.bases, hbase, hpaths]
  | some base => simp

def StaysInside (v : FileView) (o : CompilerOptions) (sources : List SourceModule) : Prop :=
  ∀ m ∈ sources, ∀ s ∈ m.specifiers, ∀ path, v.module? o m.path.normalize s = some path →
    ∃ m' ∈ sources, m'.path.normalize = path

end FileView

namespace Program

variable {v : FileView} {o : CompilerOptions} {sources : List SourceModule} {P Q : Program}

def placed (m : SourceModule) : SourceModule := { m with path := m.path.normalize }

def unlinked (sources : List SourceModule) : Program :=
  sources.foldl (fun P m => P.addModule (placed m)) {}

theorem ofSources_eq (sources : List SourceModule) : ofSources sources =
    (List.range (unlinked sources).size).foldl linkAll (unlinked sources) := rfl

theorem modules_foldl_addModule (P : Program) (sources : List SourceModule) :
    (sources.foldl (fun P m => P.addModule (placed m)) P).modules.toList =
      P.modules.toList ++ sources.map placed := by
  induction sources generalizing P with
  | nil => simp
  | cons m sources ih =>
    have hpush : (P.addModule (placed m)).modules.toList = P.modules.toList ++ [placed m] :=
      Array.toList_push ..
    rw [List.foldl_cons, ih, hpush, List.append_assoc]
    rfl

theorem modules_unlinked (sources : List SourceModule) :
    (unlinked sources).modules.toList = sources.map placed := modules_foldl_addModule {} sources

theorem size_unlinked (sources : List SourceModule) : (unlinked sources).size = sources.length := by
  rw [size, ← Array.length_toList, modules_unlinked, List.length_map]

theorem exists_moduleAt_iff (sources : List SourceModule) (m : SourceModule) :
    (∃ i < (unlinked sources).size, (unlinked sources).moduleAt i = m) ↔
      m ∈ sources.map placed := by
  rw [← modules_unlinked, Array.mem_toList_iff, Array.mem_iff_getElem]
  refine exists_congr fun i => ?_
  rw [size, ← exists_prop]
  refine exists_congr fun hi => ?_
  rw [moduleAt, Array.getD, dif_pos hi]
  rfl

theorem at?_unlinked (sources : List SourceModule) (path : Path) :
    ((unlinked sources).at? path).isSome ↔ ∃ m ∈ sources, m.path.normalize = path := by
  suffices hfold : ∀ P : Program,
      ((sources.foldl (fun P m => P.addModule (placed m)) P).at? path).isSome ↔
        (P.at? path).isSome ∨ ∃ m ∈ sources, m.path.normalize = path from
    (hfold {}).trans (or_iff_right Bool.false_ne_true)
  induction sources with
  | nil => simp
  | cons m sources ih =>
    intro P
    rw [List.foldl_cons, ih, at?_addModule, placed, List.exists_mem_cons_iff, ← or_assoc]
    refine or_congr_left ?_
    split
    · next heq => exact iff_of_true rfl (.inr heq.symm)
    · next hne => exact (or_iff_left fun heq => hne heq.symm).symm

structure SameFiles (P Q : Program) : Prop where
  modules : Q.modules = P.modules
  index : Q.index = P.index

theorem SameFiles.refl (P : Program) : P.SameFiles P := ⟨rfl, rfl⟩

theorem SameFiles.trans {R : Program} (h : P.SameFiles Q) (h' : Q.SameFiles R) : P.SameFiles R :=
  ⟨h'.modules.trans h.modules, h'.index.trans h.index⟩

theorem SameFiles.moduleAt (h : P.SameFiles Q) (i : FileId) : Q.moduleAt i = P.moduleAt i := by
  rw [Program.moduleAt, h.modules, Program.moduleAt]

theorem SameFiles.at? (h : P.SameFiles Q) (path : Path) : Q.at? path = P.at? path := by
  rw [Program.at?, h.index, Program.at?]

theorem SameFiles.size (h : P.SameFiles Q) : Q.size = P.size := by
  rw [Program.size, h.modules, Program.size]

theorem target?_of_index (h : Q.index = P.index) : Q.target? = P.target? := by
  cases P
  cases Q
  cases h
  rfl

def withLink (file : FileId) (specifier : String) (target : Option FileId) (Q : Program) :
    Program :=
  target.elim Q (Q.addLink file specifier)

theorem sameFiles_withLink (P : Program) (file : FileId) (specifier : String)
    (target : Option FileId) : P.SameFiles (P.withLink file specifier target) := by
  cases target <;> exact ⟨rfl, rfl⟩

theorem linkAll_eq (P : Program) (file : FileId) : P.linkAll file =
    (P.moduleAt file).specifiers.foldl
      (fun Q s => Q.withLink file s (P.target? (P.moduleAt file).path s)) P := by
  rw [linkAll]
  congr
  funext Q s
  cases P.target? (P.moduleAt file).path s <;> rfl

theorem sameFiles_linkAll (P : Program) (file : FileId) : P.SameFiles (P.linkAll file) := by
  rw [linkAll_eq]
  apply List.foldlRecOn (motive := fun Q : Program => P.SameFiles Q)
  · exact .refl P
  · intro Q hQ s _
    exact hQ.trans (sameFiles_withLink Q file s _)

theorem sameFiles_foldl_linkAll (P : Program) (files : List FileId) :
    P.SameFiles (files.foldl linkAll P) := by
  apply List.foldlRecOn (motive := fun Q : Program => P.SameFiles Q)
  · exact .refl P
  · intro Q hQ file _
    exact hQ.trans (sameFiles_linkAll Q file)

structure Settled (v : FileView) (o : CompilerOptions) (P : Program) : Prop where
  isFile : ∀ path, (P.at? path).isSome → v.isFile path = true
  closed : ∀ i < P.size, ∀ s ∈ (P.moduleAt i).specifiers, ∀ path,
    v.module? o (P.moduleAt i).path s = some path → (P.at? path).isSome

theorem Settled.of_sameFiles (h : P.Settled v o) (hQ : P.SameFiles Q) : Q.Settled v o := by
  constructor
  · intro path hpath
    rw [hQ.at?] at hpath
    exact h.isFile path hpath
  · intro i hi s hs path hpath
    rw [hQ.size] at hi
    rw [hQ.moduleAt] at hs hpath
    rw [hQ.at?]
    exact h.closed i hi s hs path hpath

section Settled

variable (hbase : o.baseUrl = none) (hpaths : o.paths = [])

include hbase hpaths

theorem Settled.target?_eq (h : P.Settled v o) {i : FileId} (hi : i < P.size) {s : String}
    (hs : s ∈ (P.moduleAt i).specifiers) : P.target? (P.moduleAt i).path s =
      (v.module? o (P.moduleAt i).path s).bind P.at? := by
  have hclosed := h.closed i hi s hs
  rw [FileView.module?_eq hbase hpaths] at hclosed ⊢
  rw [target?]
  cases hrelative : Specifier.base? (P.moduleAt i).path s with
  | none => rfl
  | some base =>
    rw [hrelative] at hclosed
    exact findSome?_eq_bind_find? h.isFile hclosed

theorem Settled.linkTo_eq (h : P.Settled v o) (hQ : P.SameFiles Q) {i : FileId} (hi : i < P.size)
    {s : String} (hs : s ∈ (P.moduleAt i).specifiers) :
    Q.linkTo v o i s = .ok (Q.withLink i s (P.target? (P.moduleAt i).path s)) := by
  rw [h.target?_eq hbase hpaths hi hs, linkTo, hQ.moduleAt]
  cases hpath : v.module? o (P.moduleAt i).path s with
  | none => rfl
  | some path =>
    obtain ⟨target, htarget⟩ := Option.isSome_iff_exists.1 (h.closed i hi s hs path hpath)
    have hreach : Q.reach v path = .ok (target, Q) := by
      rw [reach, hQ.at?, htarget]
    simp only [Option.bind_some, htarget, hreach]
    rfl

theorem Settled.linkFile_eq (h : P.Settled v o) {i : FileId} (hi : i < P.size) :
    P.linkFile v o i = .ok (P.linkAll i) := by
  rw [linkFile, linkAll_eq]
  suffices hloop : ∀ (rest : List String) (Q : Program), P.SameFiles Q →
      (∀ s ∈ rest, s ∈ (P.moduleAt i).specifiers) → rest.foldlM (linkTo v o i) Q =
        .ok (rest.foldl (fun Q s => Q.withLink i s (P.target? (P.moduleAt i).path s)) Q) from
    hloop _ P (.refl P) fun _ => id
  intro rest
  induction rest with
  | nil => exact fun Q _ _ => rfl
  | cons s rest ih =>
    intro Q hQ hrest
    obtain ⟨hs, hrest⟩ := List.forall_mem_cons.1 hrest
    rw [List.foldlM_cons, h.linkTo_eq hbase hpaths hQ hi hs]
    exact ih _ (hQ.trans (sameFiles_withLink Q i s _)) hrest

theorem Settled.linkFrom_eq (h : P.Settled v o) {limit i : Nat} (hlimit : P.size ≤ i + limit) :
    P.linkFrom v o limit i = .ok ((List.range' i (P.size - i)).foldl linkAll P) := by
  induction limit generalizing P i with
  | zero =>
    have hsize : P.size ≤ i := hlimit
    rw [linkFrom, Nat.sub_eq_zero_of_le hsize, List.range'_zero, List.foldl_nil]
  | succ limit ih =>
    rw [linkFrom]
    split
    · next hi =>
      have hsame := sameFiles_linkAll P i
      have hnext : (P.linkAll i).size ≤ i + 1 + limit := by
        rw [hsame.size, Nat.add_right_comm]
        exact hlimit
      have hrange : P.size - i = P.size - (i + 1) + 1 :=
        (Nat.sub_add_cancel (Nat.sub_pos_of_lt hi)).symm
      rw [h.linkFile_eq hbase hpaths hi, hrange, List.range'_succ, List.foldl_cons, ← hsame.size]
      exact ih (h.of_sameFiles hsame) hnext
    · next hi =>
      rw [Nat.sub_eq_zero_of_le (Nat.not_lt.1 hi), List.range'_zero, List.foldl_nil]

end Settled

structure OnDisk (v : FileView) (sources : List SourceModule) : Prop where
  distinct : (sources.map (·.path.normalize)).Nodup
  held : ∀ m ∈ sources, ∃ text, v.file? m.path.normalize = some ⟨some text, m.tree⟩

theorem reach_sources (h : OnDisk v sources) :
    (sources.map (·.path)).foldlM (fun P root => return (← P.reach v root.normalize).2)
      ({} : Program) = .ok (unlinked sources) := by
  rw [List.foldlM_map]
  suffices hloop : ∀ (rest : List SourceModule) (P : Program), (rest.map (·.path.normalize)).Nodup →
      (∀ m ∈ rest, m ∈ sources ∧ P.at? m.path.normalize = none) →
      rest.foldlM (fun P m => return (← P.reach v m.path.normalize).2) P =
        .ok (rest.foldl (fun P m => P.addModule (placed m)) P) from
    hloop sources {} h.distinct fun m hm => ⟨hm, rfl⟩
  intro rest
  induction rest with
  | nil => exact fun P _ _ => rfl
  | cons m rest ih =>
    intro P hnodup hrest
    obtain ⟨hnew, hnodup⟩ := List.nodup_cons.1 hnodup
    obtain ⟨⟨hm, hnone⟩, hrest⟩ := List.forall_mem_cons.1 hrest
    obtain ⟨text, htext⟩ := h.held m hm
    have hreach : P.reach v m.path.normalize = .ok (P.size, P.addModule (placed m)) := by
      rw [reach, hnone, htext]
      rfl
    rw [List.foldlM_cons, hreach]
    refine ih _ hnodup fun m' hm' => ⟨(hrest m' hm').1, ?_⟩
    rw [at?_addModule, if_neg, (hrest m' hm').2]
    exact fun heq => hnew (List.mem_map.2 ⟨m', hm', heq⟩)

theorem settled_unlinked (h : OnDisk v sources) (hinside : v.StaysInside o sources) :
    (unlinked sources).Settled v o := by
  constructor
  · intro path hpath
    obtain ⟨m, hm, rfl⟩ := (at?_unlinked sources path).1 hpath
    obtain ⟨text, htext⟩ := h.held m hm
    rw [FileView.isFile, htext]
    rfl
  · intro i hi s hs path hpath
    obtain ⟨m, hm, hmodule⟩ := List.mem_map.1 ((exists_moduleAt_iff sources _).1 ⟨i, hi, rfl⟩)
    rw [← hmodule] at hs hpath
    exact (at?_unlinked sources path).2 (hinside m hm s hs path hpath)

theorem length_le_bound (hv : v.Bounded) (h : OnDisk v sources) : sources.length ≤ v.bound := by
  have hlength := hv _ h.distinct ?_
  · rwa [List.length_map] at hlength
  · intro path hpath
    obtain ⟨m, hm, rfl⟩ := List.mem_map.1 hpath
    obtain ⟨text, htext⟩ := h.held m hm
    exact ⟨Path.isNormal_normalize _, by rw [FileView.isFile, htext]; rfl⟩

theorem load_eq_iff (hbase : o.baseUrl = none) (hpaths : o.paths = []) (hv : v.Bounded)
    (h : OnDisk v sources) :
    load v o (sources.map (·.path)) = .ok (ofSources sources) ↔ v.StaysInside o sources := by
  constructor
  · intro hload m hm s hs path hpath
    have hloaded : v.Outcome o (sources.map (·.path))
        (fun P => P.Loaded v o (sources.map (·.path)) ⟨sources.map (·.path), P.size, []⟩)
        (load v o (sources.map (·.path))) := load_loaded hv
    rw [hload] at hloaded
    have hsame : (unlinked sources).SameFiles (ofSources sources) :=
      sameFiles_foldl_linkAll _ _
    obtain ⟨i, hi, hmodule⟩ := (exists_moduleAt_iff sources (placed m)).2 (List.mem_map_of_mem hm)
    rw [← hsame.moduleAt] at hmodule
    rw [← hsame.size] at hi
    have hdone : (ofSources sources).Done ⟨sources.map (·.path), (ofSources sources).size, []⟩
        i s := .inl ⟨hi, by rw [hmodule]; exact hs⟩
    have hat := hloaded.closed i s path hdone (by rw [hmodule]; exact hpath)
    rw [hsame.at?] at hat
    exact (at?_unlinked sources path).1 hat
  · intro hinside
    have hbound : (unlinked sources).size ≤ 0 + v.bound := by
      rw [size_unlinked, Nat.zero_add]
      exact length_le_bound hv h
    rw [load, reach_sources h, ofSources_eq, List.range_eq_range']
    exact (settled_unlinked h hinside).linkFrom_eq hbase hpaths hbound

end Program

def Path.origin (p : Path) : Bool × Nat := (p.isAbsolute, p.components.count .parent)

namespace Disk

variable {d : Disk} {o : CompilerOptions} {sources : List SourceModule}

def HoldsOnly (d : Disk) (sources : List SourceModule) : Prop :=
  ∀ p, d.isFile p = true → ∃ m ∈ sources, d.place? p = d.place? m.path.normalize

theorem file?_of_place {p : Path} {place : List FileName} {f : File}
    (hplace : d.place? p = some place) (hget : d.root.get? place = some (.file f)) :
    d.file? p = some f := by
  simp only [file?, node?, hplace, Option.bind_eq_bind, Option.bind_some, hget]
  rfl

theorem staysInside_iff {origin : Bool × Nat} (h : Program.OnDisk d.view sources)
    (honly : d.HoldsOnly sources) (horigin : ∀ m ∈ sources, m.path.normalize.origin = origin) :
    d.view.StaysInside o sources ↔ ∀ m ∈ sources, ∀ s ∈ m.specifiers, ∀ path,
      d.view.module? o m.path.normalize s = some path → path.origin = origin := by
  constructor
  · intro hinside m hm s hs path hpath
    obtain ⟨m', hm', rfl⟩ := hinside m hm s hs path hpath
    exact horigin m' hm'
  · intro hsame m hm s hs path hpath
    have hfile : d.isFile path = true := List.find?_some hpath
    obtain ⟨m', hm', hplace⟩ := honly path hfile
    obtain ⟨text, htext⟩ := h.held m' hm'
    have hfile' : d.isFile m'.path.normalize = true := Option.isSome_of_eq_some htext
    have happroach : d.approach m'.path.normalize = d.approach path :=
      Prod.ext (congrArg (·.getD []) hplace.symm)
        ((horigin m' hm').trans (hsame m hm s hs path hpath).symm)
    exact ⟨m', hm', eq_of_approach (Path.isNormal_normalize _)
      (FileView.isNormal_of_module? hpath) hfile' hfile happroach⟩

end Disk

namespace Program

/-- Sources on a disk are loaded as they are exactly if no import leads outside them. If they are
all that is on the disk, this is so if imports lead to paths that start like theirs. -/
theorem load_eq_ofSources (d : Disk) {o : CompilerOptions} (hbase : o.baseUrl = none)
    (hpaths : o.paths = []) {sources : List SourceModule} (h : OnDisk d.view sources) :
    (load d.view o (sources.map (·.path)) = .ok (ofSources sources) ↔
      d.view.StaysInside o sources) ∧
    ∀ origin, d.HoldsOnly sources → (∀ m ∈ sources, m.path.normalize.origin = origin) →
      (load d.view o (sources.map (·.path)) = .ok (ofSources sources) ↔
        ∀ m ∈ sources, ∀ s ∈ m.specifiers, ∀ path,
          d.view.module? o m.path.normalize s = some path → path.origin = origin) := by
  have hload := load_eq_iff hbase hpaths d.bounded_view h
  refine ⟨hload, fun origin honly horigin => hload.trans ?_⟩
  exact d.staysInside_iff h honly horigin

def left : FileName := ⟨"left.ts", by decide⟩

def right : FileName := ⟨"right.ts", by decide⟩

def pair (specifier specifier' : String) : Disk where
  root := .directory [(left, .file (importing specifier)), (right, .file (importing specifier'))]

def pairSources (specifier specifier' : String) : List SourceModule :=
  [⟨⟨"/x/../left.ts"⟩, (importing specifier).tree⟩, ⟨⟨"/right.ts"⟩, (importing specifier').tree⟩]

def loadPair (specifier specifier' : String) : Except Error Program :=
  load (pair specifier specifier').view {} ((pairSources specifier specifier').map (·.path))

section Pair

variable (s s' : String)

theorem normalize_left : Path.normalize ⟨"/x/../left.ts"⟩ = ⟨"/left.ts"⟩ := by decide +kernel

theorem normalize_right : Path.normalize ⟨"/right.ts"⟩ = ⟨"/right.ts"⟩ := by decide +kernel

theorem place?_left : (pair s s').place? ⟨"/left.ts"⟩ = some [left] := rfl

theorem place?_right : (pair s s').place? ⟨"/right.ts"⟩ = some [right] := rfl

theorem onDisk_pair : OnDisk (pair s s').view (pairSources s s') := by
  have hleft : (pair s s').file? (Path.normalize ⟨"/x/../left.ts"⟩) = some (importing s) := by
    rw [normalize_left]
    exact Disk.file?_of_place (place?_left s s') rfl
  have hright : (pair s s').file? (Path.normalize ⟨"/right.ts"⟩) = some (importing s') := by
    rw [normalize_right]
    exact Disk.file?_of_place (place?_right s s') rfl
  constructor
  · rw [pairSources, List.map_cons, List.map_singleton, normalize_left, normalize_right]
    decide
  · exact List.forall_mem_cons.2 ⟨⟨_, hleft⟩, List.forall_mem_singleton.2 ⟨_, hright⟩⟩

theorem holdsOnly_pair : (pair s s').HoldsOnly (pairSources s s') := by
  intro p hp
  obtain ⟨place, f, hplace, hget, -⟩ := Disk.exists_place hp
  have hmem : place ∈ [[left], [right]] := (FileTree.leads_of_get? hget).mem_filePlaces
  obtain rfl | hmem := List.mem_cons.1 hmem
  · refine ⟨_, List.mem_cons_self, ?_⟩
    rw [hplace, normalize_left, place?_left]
  · refine ⟨_, List.mem_cons_of_mem _ List.mem_cons_self, ?_⟩
    rw [hplace, normalize_right, place?_right, List.mem_singleton.1 hmem]

end Pair

theorem load_eq_ofSources_beside :
    OnDisk (pair "'./right'" "'./left'").view (pairSources "'./right'" "'./left'") ∧
      (pair "'./right'" "'./left'").HoldsOnly (pairSources "'./right'" "'./left'") ∧
      loadPair "'./right'" "'./left'" = .ok (ofSources (pairSources "'./right'" "'./left'")) := by
  have hdisk := onDisk_pair "'./right'" "'./left'"
  have honly := holdsOnly_pair "'./right'" "'./left'"
  have horigin : (∀ m ∈ pairSources "'./right'" "'./left'", m.path.normalize.origin = (true, 0)) ∧
      ∀ m ∈ pairSources "'./right'" "'./left'", ∀ s ∈ m.specifiers,
        ∀ path ∈ (pair "'./right'" "'./left'").view.module? {} m.path.normalize s,
          path.origin = (true, 0) := by
    decide +kernel
  have hload := (load_eq_ofSources (o := {}) _ rfl rfl hdisk).2 (true, 0) honly horigin.1
  exact ⟨hdisk, honly, hload.2 horigin.2⟩

/-- The file beside the first one is loaded again, since it is imported from above the root. -/
theorem load_ne_ofSources_above :
    OnDisk (pair "'../right'" "'react'").view (pairSources "'../right'" "'react'") ∧
      (pair "'../right'" "'react'").HoldsOnly (pairSources "'../right'" "'react'") ∧
      loadPair "'../right'" "'react'" ≠ .ok (ofSources (pairSources "'../right'" "'react'")) := by
  refine ⟨onDisk_pair _ _, holdsOnly_pair _ _, fun hload => ?_⟩
  have hsizes : (loadPair "'../right'" "'react'").toOption.map size = some 3 ∧
      (ofSources (pairSources "'../right'" "'react'")).size = 2 := by
    decide +kernel
  rw [hload] at hsizes
  have htwo := Option.some.inj hsizes.1
  rw [hsizes.2] at htwo
  cases htwo

end Program

end PropSchema
