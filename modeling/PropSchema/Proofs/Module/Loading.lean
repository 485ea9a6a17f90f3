import PropSchema.Module.Loading
import PropSchema.Proofs.Disk.Places

namespace PropSchema

theorem Specifier.isNormal_of_mem_files {base path : Path} (h : base.IsNormal)
    (hpath : path ∈ Specifier.files base) : path.IsNormal := by
  rw [Specifier.files, List.mem_append, List.mem_append] at hpath
  obtain (hbase | hsource) | hindex := hpath
  · split at hbase
    · rwa [List.mem_singleton.1 hbase]
    · cases hbase
  · obtain ⟨extension, hextension, rfl⟩ := List.mem_map.1 hsource
    have hplain : ∀ e ∈ Specifier.extensions, '/' ∉ e.toList ∧ 3 ≤ e.toList.length := by decide
    obtain ⟨hslash, hlength⟩ := hplain extension hextension
    -- A compiled file is named without its own suffix.
    obtain ⟨suffix, hsuffix, htext⟩ : ∃ suffix : String, '/' ∉ suffix.toList ∧ base.text =
        ((Text.dropSuffix? ".js" base.text).or (Text.dropSuffix? ".jsx" base.text)).getD base.text
          ++ suffix := by
      cases hjs : Text.dropSuffix? ".js" base.text with
      | some stem => exact ⟨".js", by decide, Text.dropSuffix?_eq_some_iff.1 hjs⟩
      | none =>
        cases hjsx : Text.dropSuffix? ".jsx" base.text with
        | some stem => exact ⟨".jsx", by decide, Text.dropSuffix?_eq_some_iff.1 hjsx⟩
        | none => exact ⟨"", by simp, by simp⟩
    refine Path.isNormal_of_suffix ?_ hsuffix hslash hlength
    rwa [← htext]
  · obtain ⟨index, hmem, rfl⟩ := List.mem_map.1 hindex
    have hname : ∀ name ∈ Specifier.indexNames, Path.IsName name := by decide
    obtain ⟨q, -, rfl⟩ := h.exists_path
    rw [show index = (⟨index, hname index hmem⟩ : FileName).text from rfl, q.join_path]
    exact NormalPath.normalize_path _

namespace FileView

variable {v : FileView} {o : CompilerOptions} {roots : List Path}

theorem isNormal_of_module? {importer path : Path} {specifier : String}
    (h : v.module? o importer specifier = some path) : path.IsNormal := by
  rw [module?] at h
  obtain ⟨base, hbase, hpath⟩ := List.mem_flatMap.1 (List.mem_of_find?_eq_some h)
  refine Specifier.isNormal_of_mem_files ?_ hpath
  cases hrelative : Specifier.base? importer specifier with
  | none =>
    simp only [hrelative, List.mem_map] at hbase
    obtain ⟨written, -, rfl⟩ := hbase
    exact written.isNormal_normalize
  | some relative =>
    simp only [hrelative, List.mem_singleton] at hbase
    rw [Specifier.base?] at hrelative
    split at hrelative
    · cases hrelative
      exact hbase ▸ Path.isNormal_normalize _
    · cases hrelative

def IsReadable (v : FileView) (path : Path) : Prop := ∃ f, v.file? path = some f ∧ f.text.isSome

inductive Reaches (v : FileView) (o : CompilerOptions) (roots : List Path) : Path → Prop
  | root {root} : root ∈ roots → Reaches v o roots root.normalize
  | next {importer f specifier path} : Reaches v o roots importer → v.file? importer = some f →
    specifier ∈ SourceModule.specifiers ⟨importer, f.tree⟩ →
    v.module? o importer specifier = some path → Reaches v o roots path

theorem Reaches.isNormal {path : Path} (h : v.Reaches o roots path) : path.IsNormal := by
  cases h with
  | root _ => exact Path.isNormal_normalize _
  | next _ _ _ hpath => exact isNormal_of_module? hpath

def Outcome (v : FileView) (o : CompilerOptions) (roots : List Path) {α : Type} (good : α → Prop) :
    Except Error α → Prop
  | .ok a => good a
  | .error e => ∃ path, e = .file .readSource path ∧ v.Reaches o roots path ∧ ¬ v.IsReadable path

section Outcome

variable {α β : Type} {good : α → Prop} {good' : β → Prop}

theorem Outcome.bind {x : Except Error α} {f : α → Except Error β} (hx : v.Outcome o roots good x)
    (hf : ∀ a, good a → v.Outcome o roots good' (f a)) : v.Outcome o roots good' (x >>= f) := by
  cases x with
  | ok a => exact hf a hx
  | error e => exact hx

theorem Outcome.mono {good'' : α → Prop} {x : Except Error α} (hx : v.Outcome o roots good x)
    (h : ∀ a, good a → good'' a) : v.Outcome o roots good'' x := by
  cases x with
  | ok a => exact h a hx
  | error e => exact hx

theorem Outcome.foldlM (inv : List α → β → Prop) {f : β → α → Except Error β} {l : List α} {b : β}
    (h : ∀ done a rest b, l = done ++ a :: rest → inv done b →
      v.Outcome o roots (inv (done ++ [a])) (f b a))
    (hb : inv [] b) : v.Outcome o roots (inv l) (l.foldlM f b) := by
  suffices hrest : ∀ rest done b, l = done ++ rest → inv done b →
      v.Outcome o roots (inv l) (rest.foldlM f b) from hrest l [] b rfl hb
  intro rest
  induction rest with
  | nil =>
    intro done b hl hinv
    rw [List.append_nil] at hl
    exact hl ▸ hinv
  | cons a rest ih =>
    intro done b hl hinv
    rw [List.foldlM_cons]
    refine (h done a rest b hl hinv).bind fun b' hinv' => ih (done ++ [a]) b' ?_ hinv'
    rw [hl, List.append_assoc]
    rfl

end Outcome

end FileView

namespace Program

variable {v : FileView} {o : CompilerOptions} {roots : List Path} {P Q : Program}

theorem size_addModule (P : Program) (m : SourceModule) : (P.addModule m).size = P.size + 1 :=
  Array.size_push ..

theorem moduleAt_addModule_of_lt {m : SourceModule} {i : FileId} (h : i < P.size) :
    (P.addModule m).moduleAt i = P.moduleAt i := by
  have hne : i ≠ P.modules.size := Nat.ne_of_lt h
  simp [moduleAt, addModule, Array.getD_eq_getD_getElem?, Array.getElem?_push, hne]

theorem moduleAt_addModule_self (P : Program) (m : SourceModule) :
    (P.addModule m).moduleAt P.size = m := by
  simp [moduleAt, addModule, size, Array.getD_eq_getD_getElem?]

theorem at?_addModule (P : Program) (m : SourceModule) (path : Path) :
    (P.addModule m).at? path = if path = m.path then some P.size else P.at? path :=
  SortedMap.lookup_cons ..

theorem link?_addLink (P : Program) (file target i : FileId) (specifier s : String) :
    (P.addLink file specifier target).link? i s =
      if i = file ∧ s = specifier then some target else P.link? i s := by
  simp only [link?, addLink, List.lookup_cons]
  split <;> simp_all

structure Starts (P Q : Program) : Prop where
  size : P.size ≤ Q.size
  moduleAt : ∀ i < P.size, Q.moduleAt i = P.moduleAt i

theorem Starts.refl (P : Program) : P.Starts P := ⟨Nat.le_refl _, fun _ _ => rfl⟩

theorem Starts.trans {R : Program} (h : P.Starts Q) (h' : Q.Starts R) : P.Starts R :=
  ⟨Nat.le_trans h.size h'.size, fun i hi =>
    (h'.moduleAt i (Nat.lt_of_lt_of_le hi h.size)).trans (h.moduleAt i hi)⟩

theorem starts_addModule (P : Program) (m : SourceModule) : P.Starts (P.addModule m) :=
  ⟨by rw [size_addModule]; exact Nat.le_succ _, fun _ hi => moduleAt_addModule_of_lt hi⟩

/-- How far a program is loaded: the roots that are in it, the module whose specifiers are being
linked, and those of its specifiers that are done. -/
structure Stage where
  seen : List Path
  file : FileId
  done : List String

variable {stage : Stage}

def Done (P : Program) (stage : Stage) (i : FileId) (s : String) : Prop :=
  (i < stage.file ∧ s ∈ (P.moduleAt i).specifiers) ∨ (i = stage.file ∧ s ∈ stage.done)

structure Loaded (v : FileView) (o : CompilerOptions) (roots : List Path) (stage : Stage)
    (P : Program) : Prop where
  index : ∀ path i, P.at? path = some i ↔ i < P.size ∧ (P.moduleAt i).path = path
  read : ∀ i < P.size, ∃ text, v.file? (P.moduleAt i).path = some ⟨some text, (P.moduleAt i).tree⟩
  reached : ∀ i < P.size, v.Reaches o roots (P.moduleAt i).path
  seen : ∀ root ∈ stage.seen, (P.at? root.normalize).isSome
  cursor : stage.file < P.size ∨ stage.file = P.size ∧ stage.done = []
  closed : ∀ i s path, P.Done stage i s → v.module? o (P.moduleAt i).path s = some path →
    (P.at? path).isSome
  links : ∀ i s j, P.link? i s = some j ↔
    P.Done stage i s ∧ ∃ path, v.module? o (P.moduleAt i).path s = some path ∧ P.at? path = some j

namespace Loaded

theorem file_le_size (h : P.Loaded v o roots stage) : stage.file ≤ P.size := by
  obtain hlt | ⟨heq, -⟩ := h.cursor
  · exact Nat.le_of_lt hlt
  · exact Nat.le_of_eq heq

theorem lt_size (h : P.Loaded v o roots stage) {i : FileId} {s : String} (hdone : P.Done stage i s) :
    i < P.size := by
  obtain ⟨hi, -⟩ | ⟨rfl, hs⟩ := hdone
  · exact Nat.lt_of_lt_of_le hi h.file_le_size
  · obtain hlt | ⟨-, hnil⟩ := h.cursor
    · exact hlt
    · rw [hnil] at hs
      cases hs

theorem done_iff (h : P.Loaded v o roots stage) (hstarts : P.Starts Q) {i : FileId} {s : String} :
    Q.Done stage i s ↔ P.Done stage i s := by
  simp only [Done]
  refine or_congr_left (and_congr_right fun hi => ?_)
  rw [hstarts.moduleAt i (Nat.lt_of_lt_of_le hi h.file_le_size)]

theorem addModule (h : P.Loaded v o roots stage) {path : Path} {text : String} {tree : Node}
    (hnew : P.at? path = none) (hfile : v.file? path = some ⟨some text, tree⟩)
    (hreaches : v.Reaches o roots path) :
    (P.addModule ⟨path, tree⟩).Loaded v o roots stage := by
  have hstarts := starts_addModule P ⟨path, tree⟩
  have hmodule {i : FileId} (hi : i < P.size) := hstarts.moduleAt i hi
  have hself := moduleAt_addModule_self P ⟨path, tree⟩
  have hsize := size_addModule P ⟨path, tree⟩
  have hat := at?_addModule P ⟨path, tree⟩
  have hold {q : Path} (hq : (P.at? q).isSome) : (P.addModule ⟨path, tree⟩).at? q = P.at? q := by
    rw [hat, if_neg]
    rintro rfl
    rw [hnew] at hq
    cases hq
  have hlt {i : FileId} : i < (P.addModule ⟨path, tree⟩).size ↔ i < P.size ∨ i = P.size := by
    rw [hsize]
    exact Nat.lt_succ_iff_lt_or_eq
  constructor
  case index =>
    intro q i
    rw [hlt]
    constructor
    · intro hq
      rw [hat] at hq
      split at hq
      · next heq =>
        cases hq
        exact ⟨.inr rfl, by rw [hself, heq]⟩
      · obtain ⟨hi, hpath⟩ := (h.index q i).1 hq
        exact ⟨.inl hi, by rw [hmodule hi, hpath]⟩
    · rintro ⟨hi | rfl, hpath⟩
      · rw [hmodule hi] at hpath
        have hq := (h.index q i).2 ⟨hi, hpath⟩
        rw [hold (by rw [hq]; rfl), hq]
      · rw [hself] at hpath
        rw [hat, if_pos hpath.symm]
  case read =>
    intro i hi
    obtain hi | rfl := hlt.1 hi
    · rw [hmodule hi]
      exact h.read i hi
    · rw [hself]
      exact ⟨text, hfile⟩
  case reached =>
    intro i hi
    obtain hi | rfl := hlt.1 hi
    · rw [hmodule hi]
      exact h.reached i hi
    · rwa [hself]
  case seen =>
    intro root hroot
    rw [hold (h.seen root hroot)]
    exact h.seen root hroot
  case cursor =>
    rw [hsize]
    exact .inl (Nat.lt_succ_of_le h.file_le_size)
  case closed =>
    intro i s q hdone hq
    rw [h.done_iff hstarts] at hdone
    rw [hmodule (h.lt_size hdone)] at hq
    have hsome := h.closed i s q hdone hq
    rwa [hold hsome]
  case links =>
    intro i s j
    rw [h.done_iff hstarts]
    refine (h.links i s j).trans (and_congr_right fun hdone => ?_)
    rw [hmodule (h.lt_size hdone)]
    refine exists_congr fun q => and_congr_right fun hq => ?_
    rw [hold (h.closed i s q hdone hq)]

theorem reach (h : P.Loaded v o roots stage) {path : Path} (hreaches : v.Reaches o roots path) :
    v.Outcome o roots
      (fun r => r.2.Loaded v o roots stage ∧ r.2.at? path = some r.1 ∧ P.Starts r.2)
      (P.reach v path) := by
  fun_cases Program.reach v path P with
  | case1 i hat => exact ⟨h, hat, .refl P⟩
  | case2 text tree hfile hnew =>
    refine ⟨h.addModule hnew hfile hreaches, ?_, starts_addModule P _⟩
    rw [at?_addModule, if_pos rfl]
  | case3 hnew hunread =>
    refine ⟨path, rfl, hreaches, ?_⟩
    rintro ⟨⟨_ | text, tree⟩, hfile, htext⟩
    · cases htext
    · exact hunread text tree hfile

theorem append_done (h : P.Loaded v o roots stage) (hfile : stage.file < P.size) {s : String}
    {links : List ((FileId × String) × FileId)}
    (hlinks : ∀ i s', ({ P with links } : Program).link? i s' = if i = stage.file ∧ s' = s then
      (v.module? o (P.moduleAt stage.file).path s).bind P.at? else P.link? i s')
    (hclosed : ∀ path, v.module? o (P.moduleAt stage.file).path s = some path →
      (P.at? path).isSome) :
    ({ P with links } : Program).Loaded v o roots ⟨stage.seen, stage.file, stage.done ++ [s]⟩ := by
  have hdone {i : FileId} {s' : String} :
      ({ P with links } : Program).Done ⟨stage.seen, stage.file, stage.done ++ [s]⟩ i s' ↔
        P.Done stage i s' ∨ (i = stage.file ∧ s' = s) := by
    have hmodule : ({ P with links } : Program).moduleAt i = P.moduleAt i := rfl
    simp only [Done, hmodule, List.mem_append, List.mem_singleton, and_or_left, or_assoc]
  refine ⟨h.index, h.read, h.reached, h.seen, .inl hfile, ?_, ?_⟩
  · intro i s' path hi hpath
    obtain hi | ⟨rfl, rfl⟩ := hdone.1 hi
    · exact h.closed i s' path hi hpath
    · exact hclosed path hpath
  · intro i s' j
    rw [hlinks, hdone]
    split
    · next hpair =>
      obtain ⟨rfl, rfl⟩ := hpair
      rw [Option.bind_eq_some_iff]
      exact (and_iff_right (.inr ⟨rfl, rfl⟩)).symm
    · next hpair =>
      rw [or_iff_left hpair]
      exact h.links i s' j

theorem linkTo (h : P.Loaded v o roots stage) (hfile : stage.file < P.size) {s : String}
    (hs : s ∈ (P.moduleAt stage.file).specifiers) :
    v.Outcome o roots
      (fun Q => Q.Loaded v o roots ⟨stage.seen, stage.file, stage.done ++ [s]⟩ ∧ P.Starts Q)
      (P.linkTo v o stage.file s) := by
  rw [Program.linkTo]
  split
  · next path hpath =>
    obtain ⟨text, hread⟩ := h.read stage.file hfile
    refine (h.reach ((h.reached stage.file hfile).next hread hs hpath)).bind ?_
    rintro ⟨target, Q⟩ ⟨hQ, hat, hstarts⟩
    have hmodule := hstarts.moduleAt stage.file hfile
    refine ⟨hQ.append_done (Nat.lt_of_lt_of_le hfile hstarts.size) ?_ ?_, hstarts.size,
      hstarts.moduleAt⟩
    · intro i s'
      rw [hmodule, hpath, Option.bind_some, hat]
      exact Q.link?_addLink stage.file target i s s'
    · intro path' hpath'
      rw [hmodule, hpath] at hpath'
      cases hpath'
      rw [hat]
      rfl
  · next hexternal =>
    refine ⟨h.append_done hfile ?_ ?_, .refl P⟩
    · intro i s'
      split
      · next hpair =>
        obtain ⟨rfl, rfl⟩ := hpair
        rw [hexternal, Option.bind_none, Option.eq_none_iff_forall_ne_some]
        intro j hj
        obtain ⟨-, path, hpath, -⟩ := (h.links _ _ j).1 hj
        rw [hexternal] at hpath
        cases hpath
      · rfl
    · intro path hpath
      rw [hexternal] at hpath
      cases hpath

theorem linkFile {seen : List Path} {file : FileId} (h : P.Loaded v o roots ⟨seen, file, []⟩)
    (hfile : file < P.size) :
    v.Outcome o roots (fun Q => Q.Loaded v o roots ⟨seen, file + 1, []⟩ ∧ P.Starts Q)
      (P.linkFile v o file) := by
  have hloop : v.Outcome o roots
      (fun Q => Q.Loaded v o roots ⟨seen, file, (P.moduleAt file).specifiers⟩ ∧ P.Starts Q)
      (P.linkFile v o file) := by
    refine FileView.Outcome.foldlM
      (fun done Q => Q.Loaded v o roots ⟨seen, file, done⟩ ∧ P.Starts Q) ?_ ⟨h, .refl P⟩
    intro done s rest Q hspecifiers ⟨hQ, hstarts⟩
    have hs : s ∈ (Q.moduleAt file).specifiers := by
      rw [hstarts.moduleAt file hfile, hspecifiers]
      exact List.mem_append_right _ List.mem_cons_self
    exact (hQ.linkTo (Nat.lt_of_lt_of_le hfile hstarts.size) hs).mono
      fun R ⟨hR, hstarts'⟩ => ⟨hR, hstarts.trans hstarts'⟩
  refine hloop.mono fun Q ⟨hQ, hstarts⟩ => ⟨?_, hstarts⟩
  have hdone {i : FileId} {s : String} : Q.Done ⟨seen, file + 1, []⟩ i s ↔
      Q.Done ⟨seen, file, (P.moduleAt file).specifiers⟩ i s := by
    rw [← hstarts.moduleAt file hfile]
    simp only [Done, Nat.lt_succ_iff_lt_or_eq, List.not_mem_nil, and_false, or_false, or_and_right]
    refine or_congr_right (and_congr_right ?_)
    rintro rfl
    rfl
  refine ⟨hQ.index, hQ.read, hQ.reached, hQ.seen, ?_, ?_, ?_⟩
  · obtain hlt | heq := Nat.lt_or_eq_of_le (Nat.lt_of_lt_of_le hfile hstarts.size)
    · exact .inl hlt
    · exact .inr ⟨heq, rfl⟩
  · intro i s path hi
    exact hQ.closed i s path (hdone.1 hi)
  · intro i s j
    rw [hdone]
    exact hQ.links i s j

theorem size_le (h : P.Loaded v o roots stage) (hv : v.Bounded) : P.size ≤ v.bound := by
  have hpath {i j : FileId} (hi : i < P.size) (hj : j < P.size)
      (hij : (P.moduleAt i).path = (P.moduleAt j).path) : i = j := by
    have hati := (h.index _ i).2 ⟨hi, rfl⟩
    have hatj := (h.index _ j).2 ⟨hj, rfl⟩
    rw [hij, hatj] at hati
    exact (Option.some.inj hati).symm
  have hnodup : ((List.range P.size).map fun i => (P.moduleAt i).path).Nodup :=
    List.nodup_range.map_on fun i hi j hj => hpath (List.mem_range.1 hi) (List.mem_range.1 hj)
  have hlength := hv _ hnodup ?_
  · rwa [List.length_map, List.length_range] at hlength
  · intro path hmem
    obtain ⟨i, hi, rfl⟩ := List.mem_map.1 hmem
    obtain ⟨text, hread⟩ := h.read i (List.mem_range.1 hi)
    exact ⟨(h.reached i (List.mem_range.1 hi)).isNormal, by rw [FileView.isFile, hread]; rfl⟩

theorem linkFrom (hv : v.Bounded) {seen : List Path} {limit : Nat} {file : FileId}
    (h : P.Loaded v o roots ⟨seen, file, []⟩) (hlimit : v.bound ≤ file + limit) :
    v.Outcome o roots (fun Q => Q.Loaded v o roots ⟨seen, Q.size, []⟩)
      (P.linkFrom v o limit file) := by
  induction limit generalizing P file with
  | zero =>
    -- All the files that there can be were linked.
    have heq : file = P.size :=
      Nat.le_antisymm h.file_le_size (Nat.le_trans (h.size_le hv) hlimit)
    rw [heq] at h
    exact h
  | succ limit ih =>
    rw [Program.linkFrom]
    split
    · next hfile =>
      refine (h.linkFile hfile).bind fun Q hQ => ih hQ.1 ?_
      rwa [Nat.add_right_comm]
    · next hfile =>
      have heq : file = P.size := Nat.le_antisymm h.file_le_size (Nat.not_lt.1 hfile)
      rw [heq] at h
      exact h

theorem linkFrom_add (hv : v.Bounded) {seen : List Path} {limit : Nat} {file : FileId}
    (h : P.Loaded v o roots ⟨seen, file, []⟩) (hlimit : v.bound ≤ file + limit) (more : Nat) :
    P.linkFrom v o (limit + more) file = P.linkFrom v o limit file := by
  induction limit generalizing P file with
  | zero =>
    have hfile : ¬ file < P.size := Nat.not_lt.2 (Nat.le_trans (h.size_le hv) hlimit)
    cases more with
    | zero => rfl
    | succ more => exact (Nat.zero_add _).symm ▸ if_neg hfile
  | succ limit ih =>
    rw [Nat.succ_add, Program.linkFrom, Program.linkFrom]
    split
    · next hfile =>
      have hnext := h.linkFile hfile
      cases hQ : P.linkFile v o file with
      | error e => rfl
      | ok Q =>
        rw [hQ] at hnext
        refine ih hnext.1 ?_
        rwa [Nat.add_right_comm]
    · rfl

theorem ofRoots (v : FileView) (o : CompilerOptions) (roots : List Path) :
    v.Outcome o roots (fun P : Program => P.Loaded v o roots ⟨roots, 0, []⟩)
      (roots.foldlM (fun P root => return (← P.reach v root.normalize).2) ({} : Program)) := by
  refine FileView.Outcome.foldlM (fun seen (P : Program) => P.Loaded v o roots ⟨seen, 0, []⟩) ?_ ?_
  · intro seen root rest P hroots h
    have hroot : root ∈ roots := hroots ▸ List.mem_append_right _ List.mem_cons_self
    refine (h.reach (.root hroot)).bind ?_
    rintro ⟨i, Q⟩ ⟨hQ, hat, -⟩
    refine ⟨hQ.index, hQ.read, hQ.reached, ?_, hQ.cursor, hQ.closed, hQ.links⟩
    intro root' hroot'
    obtain hroot' | hroot' := List.mem_append.1 hroot'
    · exact hQ.seen root' hroot'
    · rw [List.mem_singleton.1 hroot', hat]
      rfl
  · have hnone {i : FileId} {s : String} : ¬ ({} : Program).Done ⟨[], 0, []⟩ i s := by
      rintro (⟨hi, -⟩ | ⟨-, hs⟩)
      · exact Nat.not_lt_zero i hi
      · cases hs
    constructor
    case index =>
      intro path i
      refine iff_of_false nofun ?_
      rintro ⟨hi, -⟩
      exact Nat.not_lt_zero i hi
    case read => exact fun i hi => absurd hi (Nat.not_lt_zero i)
    case reached => exact fun i hi => absurd hi (Nat.not_lt_zero i)
    case seen => exact fun root hroot => absurd hroot List.not_mem_nil
    case cursor => exact .inr ⟨rfl, rfl⟩
    case closed => exact fun i s path hdone => absurd hdone hnone
    case links => exact fun i s j => iff_of_false nofun fun ⟨hdone, _⟩ => hnone hdone

end Loaded

theorem load_loaded (hv : v.Bounded) :
    v.Outcome o roots (fun P => P.Loaded v o roots ⟨roots, P.size, []⟩) (load v o roots) :=
  (Loaded.ofRoots v o roots).bind fun _ h => h.linkFrom hv (Nat.le_add_left ..)

theorem linkFrom_withBound (P : Program) (v : FileView) (o : CompilerOptions) (n limit : Nat)
    (file : FileId) :
    P.linkFrom { v with bound := n } o limit file = P.linkFrom v o limit file := by
  induction limit generalizing P file with
  | zero => rfl
  | succ limit ih =>
    rw [linkFrom, linkFrom]
    congr 1
    exact bind_congr fun Q => ih Q (file + 1)

theorem load_withBound (hv : v.Bounded) {n : Nat} (hn : v.bound ≤ n) :
    load { v with bound := n } o roots = load v o roots := by
  obtain ⟨more, rfl⟩ := Nat.exists_eq_add_of_le hn
  have hroots := Loaded.ofRoots v o roots
  rw [load, load]
  change roots.foldlM (fun P root => return (← P.reach v root.normalize).2) ({} : Program) >>= _ = _
  cases hP : roots.foldlM (fun P root => return (← P.reach v root.normalize).2) ({} : Program) with
  | error e => rfl
  | ok P =>
    rw [hP] at hroots
    exact (linkFrom_withBound ..).trans (hroots.linkFrom_add hv (Nat.le_add_left ..) more)

/-- The program has the roots and all that can be reached from them by imports, each under its path
in normal form, and every import that leads to a file is linked to it. -/
structure IsClosure (v : FileView) (o : CompilerOptions) (roots : List Path) (P : Program) :
    Prop where
  files : ∀ path, (∃ i < P.size, (P.moduleAt i).path = path) ↔ v.Reaches o roots path
  index : ∀ path i, P.at? path = some i ↔ i < P.size ∧ (P.moduleAt i).path = path
  normal : ∀ i < P.size, (P.moduleAt i).path.IsNormal
  source : ∀ i < P.size,
    ∃ text, v.file? (P.moduleAt i).path = some ⟨some text, (P.moduleAt i).tree⟩
  resolved : ∀ i < P.size, ∀ s ∈ (P.moduleAt i).specifiers, ∀ path,
    v.module? o (P.moduleAt i).path s = some path →
      ∃ j < P.size, (P.moduleAt j).path = path ∧ P.link? i s = some j
  external : ∀ i < P.size, ∀ s, v.module? o (P.moduleAt i).path s = none → P.link? i s = none

theorem Loaded.isClosure (h : P.Loaded v o roots ⟨roots, P.size, []⟩) : P.IsClosure v o roots := by
  have hdone {i : FileId} {s : String} (hi : i < P.size) (hs : s ∈ (P.moduleAt i).specifiers) :
      P.Done ⟨roots, P.size, []⟩ i s := .inl ⟨hi, hs⟩
  have hfile {path : Path} (hpath : (P.at? path).isSome) :
      ∃ i < P.size, (P.moduleAt i).path = path := by
    obtain ⟨i, hi⟩ := Option.isSome_iff_exists.1 hpath
    exact ⟨i, (h.index path i).1 hi⟩
  refine ⟨fun path => ⟨?_, ?_⟩, h.index, fun i hi => (h.reached i hi).isNormal, h.read, ?_, ?_⟩
  · rintro ⟨i, hi, rfl⟩
    exact h.reached i hi
  · intro hreaches
    induction hreaches with
    | root hroot => exact hfile (h.seen _ hroot)
    | next _ hread hs hpath ih =>
      obtain ⟨i, hi, rfl⟩ := ih
      obtain ⟨text, hread'⟩ := h.read i hi
      cases hread.symm.trans hread'
      exact hfile (h.closed i _ _ (hdone hi hs) hpath)
  · intro i hi s hs path hpath
    obtain ⟨j, hj⟩ := Option.isSome_iff_exists.1 (h.closed i s path (hdone hi hs) hpath)
    obtain ⟨hlt, hat⟩ := (h.index path j).1 hj
    exact ⟨j, hlt, hat, (h.links i s j).2 ⟨hdone hi hs, path, hpath, hj⟩⟩
  · intro i _ s hnone
    rw [Option.eq_none_iff_forall_ne_some]
    intro j hj
    obtain ⟨-, path, hpath, -⟩ := (h.links i s j).1 hj
    rw [hnone] at hpath
    cases hpath

/-- Loading computes the closure of the roots under imports. It succeeds if every file of the closure
can be read, and its limit never cuts it short. -/
theorem load_isClosure (d : Disk) (o : CompilerOptions) (roots : List Path) :
    (∀ P, load d.view o roots = .ok P → P.IsClosure d.view o roots) ∧
      ((∃ P, load d.view o roots = .ok P) ↔
        ∀ path, d.view.Reaches o roots path → d.view.IsReadable path) ∧
      ∀ n, d.view.bound ≤ n → load { d.view with bound := n } o roots = load d.view o roots := by
  have hloaded : d.view.Outcome o roots (fun P => P.Loaded d.view o roots ⟨roots, P.size, []⟩)
      (load d.view o roots) := load_loaded d.bounded_view
  have hclosure : ∀ P, load d.view o roots = .ok P → P.IsClosure d.view o roots := by
    intro P hP
    rw [hP] at hloaded
    exact hloaded.isClosure
  refine ⟨hclosure, ⟨?_, ?_⟩, fun n hn => load_withBound d.bounded_view hn⟩
  · rintro ⟨P, hP⟩ path hpath
    obtain ⟨i, hi, rfl⟩ := ((hclosure P hP).files path).2 hpath
    obtain ⟨text, hread⟩ := (hclosure P hP).source i hi
    exact ⟨_, hread, rfl⟩
  · intro hreadable
    cases hP : load d.view o roots with
    | ok P => exact ⟨P, rfl⟩
    | error e =>
      rw [hP] at hloaded
      obtain ⟨path, -, hreaches, hunread⟩ := hloaded
      exact absurd (hreadable path hreaches) hunread

def importing (specifier : String) : File where
  text := some s!"import {specifier};"
  tree := ⟨0, .other "program", true, none, ⟨0, 0⟩, 1, "", [
    ⟨1, .importStatement, true, none, ⟨0, 0⟩, 1, "", [
      ⟨2, .other "string", true, some .source, ⟨0, 0⟩, 1, specifier, []⟩]⟩]⟩

def circle : Disk where
  root := .directory [
    (⟨"a.ts", by decide⟩, .file (importing "'./b'")),
    (⟨"b.ts", by decide⟩, .file (importing "'./a'"))]

theorem load_isClosure_circle : ∃ P, load circle.view {} [⟨"/a.ts"⟩] = .ok P ∧
    (P.size = 2 ∧ P.link? 1 "./a" = some 0) ∧ P.IsClosure circle.view {} [⟨"/a.ts"⟩] := by
  have heval : (load circle.view {} [⟨"/a.ts"⟩]).toOption.map
      (fun P => (P.size, P.link? 1 "./a")) = some (2, some 0) := by decide +kernel
  have hclosure := load_isClosure circle {} [⟨"/a.ts"⟩]
  cases hload : load circle.view {} [⟨"/a.ts"⟩] with
  | error e =>
    rw [hload] at heval
    cases heval
  | ok P =>
    rw [hload] at heval
    exact ⟨P, rfl, Prod.mk.inj (Option.some.inj heval), hclosure.1 P hload⟩

end Program

end PropSchema
