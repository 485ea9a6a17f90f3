import PropSchema.Proofs.Component.Requests
import PropSchema.Proofs.Component.Walk
import PropSchema.Proofs.Module.Loading
import PropSchema.Proofs.Schema.CutOff
import PropSchema.Session.Basic

namespace PropSchema

section Except

variable {α β : Type} {f : α → Except Error β} {b : β}

theorem exists_of_bind_eq_ok {x : Except Error α} (h : x >>= f = .ok b) :
    ∃ a, x = .ok a ∧ f a = .ok b := by
  cases x with
  | ok a => exact ⟨a, rfl, h⟩
  | error e => cases h

theorem exists_of_mapM_eq_ok {l : List α} {bs : List β} (h : l.mapM f = .ok bs) (hb : b ∈ bs) :
    ∃ a ∈ l, f a = .ok b := by
  induction l generalizing bs with
  | nil =>
    cases h
    cases hb
  | cons a l ih =>
    rw [List.mapM_cons] at h
    obtain ⟨b', hb', h⟩ := exists_of_bind_eq_ok h
    obtain ⟨bs', hbs', h⟩ := exists_of_bind_eq_ok h
    cases h
    obtain rfl | hb := List.mem_cons.1 hb
    · exact ⟨a, List.mem_cons_self, hb'⟩
    · obtain ⟨a', hmem, ha'⟩ := ih hbs' hb
      exact ⟨a', List.mem_cons_of_mem _ hmem, ha'⟩

end Except

theorem Schema.lookup_insertAll {s : Schema} {entries : List SchemaEntry} {key : String}
    (h : (s.insertAll entries).lookup key ≠ s.lookup key) :
    ∃ e ∈ entries, e.path = key ∧ (s.insertAll entries).lookup key = some e := by
  induction entries generalizing s with
  | nil => exact absurd rfl h
  | cons e entries ih =>
    change (Schema.insertAll (SortedMap.insert e.path e s) entries).lookup key ≠ _ at h
    by_cases hrest : (Schema.insertAll (SortedMap.insert e.path e s) entries).lookup key =
        (SortedMap.insert e.path e s).lookup key
    · rw [hrest, SortedMap.lookup_insert] at h
      have hkey : key = e.path := by
        by_contra hne
        exact h (if_neg hne)
      refine ⟨e, List.mem_cons_self, hkey.symm, hrest.trans ?_⟩
      rw [SortedMap.lookup_insert, if_pos hkey]
    · obtain ⟨e', hmem, hpath, hlookup⟩ := ih hrest
      exact ⟨e', List.mem_cons_of_mem _ hmem, hpath, hlookup⟩

namespace Program

variable {P : Program} {root : Path}

theorem entryOf_eq_some {file : FileId} {t : TypeTable} {type : TypeId} {e : SchemaEntry}
    (h : P.entryOf root file t type = some (some e)) :
    e.props ≠ [] ∧ schemaKey? root (P.moduleAt file).path = some e.path := by
  obtain ⟨props, -, hentry⟩ := Option.map_eq_some_iff.1 h
  split at hentry
  · cases hentry
  · next hne =>
    obtain ⟨key, hkey, rfl⟩ := Option.map_eq_some_iff.1 hentry
    exact ⟨fun hnil => hne (List.isEmpty_iff.2 hnil), hkey⟩

theorem after_schemaEntry_eq_some {b : Bindings} {file : FileId} {e : SchemaEntry}
    (h : (b.after (P.schemaEntry root file)).1 = some (some e)) :
    e.props ≠ [] ∧ schemaKey? root (P.moduleAt file).path = some e.path := by
  rw [schemaEntry] at h
  cases hplace : P.propsPlace? file with
  | none =>
    rw [after_schemaEntry_of_none hplace] at h
    cases h
  | some place =>
    rw [after_schemaEntry_of_some hplace] at h
    exact entryOf_eq_some h

theorem mem_after_mapM {α β : Type} {b : Bindings} {f : α → BindM β} {l : List α} {x : β}
    (h : x ∈ (b.after (l.mapM f)).1) : ∃ a ∈ l, ∃ b' : Bindings, (b'.after (f a)).1 = x := by
  induction l generalizing b with
  | nil => cases h
  | cons a l ih =>
    rw [List.mapM_cons] at h
    obtain rfl | h := List.mem_cons.1 h
    · exact ⟨a, List.mem_cons_self, b, rfl⟩
    · obtain ⟨a', hmem, hafter⟩ := ih h
      exact ⟨a', List.mem_cons_of_mem _ hmem, hafter⟩

theorem exists_of_mem_entries {files : List Path} {entries : List SchemaEntry} {e : SchemaEntry}
    (h : P.entries root files = some entries) (he : e ∈ entries) :
    ∃ file ∈ files, ∃ i, P.fileId? file = some i ∧
      ∃ b : Bindings, (b.after (P.schemaEntry root i)).1 = some (some e) := by
  obtain ⟨found, hfound, rfl⟩ := Option.map_eq_some_iff.1 h
  obtain ⟨entry, hentry, rfl⟩ := List.mem_filterMap.1 he
  obtain ⟨result, hresult, rfl⟩ := TypeTable.mem_mapM hfound hentry
  obtain ⟨i, hi, b, hafter⟩ := mem_after_mapM hresult
  obtain ⟨file, hfile, hi⟩ := List.mem_filterMap.1 hi
  exact ⟨file, hfile, i, hi, b, hafter⟩

end Program

namespace Session

variable {α : Type}

def after (s : Session) (x : SessionM α) : Option (Except Error α × Session) := x.run.run s

def finish (s : Session) (hasRun : Bool) : Except Error (Option (List SchemaEntry)) →
    Option (Except Error Nat × Session)
  | .ok found => found.map fun entries =>
    (.ok entries.length, { s with schema := s.schema.insertAll entries, hasRun })
  | .error e => some (.error e, s)

theorem after_lift_bind {s : Session} {x : Except Error α} {f : α → SessionM Nat} {hasRun : Bool}
    {g : α → Except Error (Option (List SchemaEntry))}
    (h : ∀ a, s.after (f a) = s.finish hasRun (g a)) :
    s.after (liftM x >>= f) = s.finish hasRun (x >>= g) := by
  cases x with
  | ok a => exact h a
  | error e => rfl

def entriesOf (d : Disk) (tsconfig root : Path) :
    List Path → Except Error (Option (List SchemaEntry))
  | [] => .ok (some [])
  | files => do
    let o ← CompilerOptions.load d tsconfig
    let P ← Program.load d.view o files
    return P.entries root files

theorem after_takeIn (s : Session) (d : Disk) (root : Path) (files : List Path) :
    s.after (takeIn d root files) =
      s.finish s.hasRun (entriesOf d s.options.tsconfig root files) := by
  cases files with
  | nil => rfl
  | cons first rest =>
    change s.after (liftM (CompilerOptions.load d s.options.tsconfig) >>= _) = _
    refine after_lift_bind fun o => after_lift_bind fun P => ?_
    generalize P.entries root (first :: rest) = found
    cases found <;> rfl

theorem after_takeIn_finish (s : Session) (d : Disk) (root : Path) (files : List Path) :
    s.after (do
      let count ← takeIn d root files
      modify ({ · with hasRun := true })
      return count) = s.finish true (entriesOf d s.options.tsconfig root files) := by
  -- The step after `takeIn` reads nothing but its outcome.
  change (s.after (takeIn d root files)).bind (fun r => StateT.run (ExceptT.bindCont _ r.1) r.2) = _
  rw [s.after_takeIn d root files]
  cases entriesOf d s.options.tsconfig root files with
  | error e => rfl
  | ok found => cases found <;> rfl

inductive Call
  | build (d : Disk)
  | update (d : Disk) (changed : List Path)

namespace Call

def disk : Call → Disk
  | build d => d
  | update d _ => d

def isBuild : Call → Bool
  | build _ => true
  | update _ _ => false

def run (s : Session) : Call → Option (Except Error Nat × Session)
  | build d => s.after (Session.build d)
  | update d changed => s.after (Session.update d changed)

def files (root : Path) (patterns : List Glob.Pattern) : Call → Except Error (List Path)
  | build d => d.componentFiles root patterns
  | update d changed => changedFiles d root patterns changed

def isIdle (s : Session) (c : Call) : Bool := c.isBuild && s.hasRun

def Processes (s : Session) (c : Call) (root file : Path) : Prop :=
  c.isIdle s = false ∧ rootPath c.disk s.options = .ok root ∧
    ∃ patterns files, compilePatterns s.options.ignorePatterns = .ok patterns ∧
      c.files root patterns = .ok files ∧ file ∈ files

def Yields (s : Session) (c : Call) (e : SchemaEntry) : Prop :=
  e.props ≠ [] ∧ ∃ root file, c.Processes s root file ∧ file.isComponentFile = true ∧
    c.disk.isFile file = true ∧ schemaKey? root file = some e.path

def entries (s : Session) (c : Call) : Except Error (Option (List SchemaEntry)) :=
  if c.isIdle s then .ok (some []) else do
    let root ← rootPath c.disk s.options
    let patterns ← compilePatterns s.options.ignorePatterns
    let files ← c.files root patterns
    entriesOf c.disk s.options.tsconfig root files

theorem run_eq (s : Session) (c : Call) :
    c.run s = s.finish (s.hasRun || c.isBuild) (c.entries s) := by
  cases c with
  | update d changed =>
    rw [isBuild, Bool.or_false]
    exact after_lift_bind fun root => after_lift_bind fun patterns => after_lift_bind fun files =>
      s.after_takeIn d root files
  | build d =>
    rw [isBuild, Bool.or_true]
    obtain ⟨options, schema, hasRun⟩ := s
    cases hasRun with
    | true => rfl
    | false =>
      exact after_lift_bind fun root => after_lift_bind fun patterns => after_lift_bind fun files =>
        after_takeIn_finish _ d root files

theorem isNormal_of_rootPath {d : Disk} {o : Options} {root : Path} (h : rootPath d o = .ok root) :
    root.IsNormal := by
  rw [rootPath, Disk.absolute?] at h
  split at h
  · cases h
  · cases h
    exact Path.isNormal_normalize _

theorem isComponentFile_of_changed {d : Disk} {root p : Path} {patterns : List Glob.Pattern}
    {changed files : List Path} (h : changedFiles d root patterns changed = .ok files)
    (hp : p ∈ files) : p.IsNormal ∧ p.isComponentFile = true := by
  obtain ⟨paths, hpaths, h⟩ := exists_of_bind_eq_ok h
  cases h
  rw [List.mem_eraseDups, List.mem_filter, Bool.and_eq_true, Path.isWatched] at hp
  obtain ⟨hmem, hwatched, -⟩ := hp
  obtain ⟨written, -, hwritten⟩ := exists_of_mapM_eq_ok hpaths hmem
  simp only [Bool.and_eq_true] at hwatched
  refine ⟨?_, hwatched.1.1.2⟩
  rw [Disk.absolute?] at hwritten
  split at hwritten
  · cases hwritten
  · cases hwritten
    exact Path.isNormal_normalize _

theorem isComponentFile_of_mem_files {root p : Path} {patterns : List Glob.Pattern}
    (hroot : root.IsNormal) {c : Call} {files : List Path} (h : c.files root patterns = .ok files)
    (hp : p ∈ files) : p.IsNormal ∧ p.isComponentFile = true := by
  cases c with
  | build d => exact Disk.isComponentFile_of_mem hroot h hp
  | update d changed => exact isComponentFile_of_changed h hp

theorem mem_entriesOf {d : Disk} {tsconfig root : Path} {files : List Path}
    {entries : List SchemaEntry} {e : SchemaEntry}
    (h : entriesOf d tsconfig root files = .ok (some entries)) (he : e ∈ entries) :
    e.props ≠ [] ∧ ∃ file ∈ files, d.isFile file.normalize = true ∧ schemaKey? root file.normalize = some e.path := by
  cases files with
  | nil =>
    cases h
    cases he
  | cons first rest =>
    obtain ⟨o, -, h⟩ := exists_of_bind_eq_ok h
    obtain ⟨P, hP, h⟩ := exists_of_bind_eq_ok h
    obtain ⟨file, hfile, i, hi, b, hafter⟩ := Program.exists_of_mem_entries (Except.ok.inj h) he
    obtain ⟨hprops, hkey⟩ := Program.after_schemaEntry_eq_some hafter
    have hloaded : d.view.Outcome o (first :: rest)
        (fun P => P.Loaded d.view o (first :: rest) ⟨first :: rest, P.size, []⟩) (.ok P) :=
      hP ▸ Program.load_loaded d.bounded_view
    obtain ⟨hlt, hpath⟩ := (hloaded.index _ _).1 hi
    obtain ⟨text, hread⟩ := hloaded.read i hlt
    rw [hpath] at hread hkey
    exact ⟨hprops, file, hfile, Option.isSome_of_eq_some hread, hkey⟩

theorem mem_entries {s : Session} {c : Call} {entries : List SchemaEntry} {e : SchemaEntry}
    (h : c.entries s = .ok (some entries)) (he : e ∈ entries) : c.Yields s e := by
  rw [Call.entries] at h
  split at h
  · cases h
    cases he
  · next hidle =>
    obtain ⟨root, hroot, h⟩ := exists_of_bind_eq_ok h
    obtain ⟨patterns, hpatterns, h⟩ := exists_of_bind_eq_ok h
    obtain ⟨files, hfiles, h⟩ := exists_of_bind_eq_ok h
    obtain ⟨hprops, file, hfile, hisFile, hkey⟩ := mem_entriesOf h he
    obtain ⟨hnormal, hcomponent⟩ :=
      isComponentFile_of_mem_files (isNormal_of_rootPath hroot) hfiles hfile
    rw [show file.normalize = file from hnormal] at hisFile hkey
    refine ⟨hprops, root, file, ⟨?_, hroot, patterns, files, hpatterns, hfiles, hfile⟩, hcomponent,
      hisFile, hkey⟩
    exact Bool.eq_false_iff.2 hidle

structure Extends (s : Session) (c : Call) (count : Nat) (s' : Session) : Prop where
  options : s'.options = s.options
  hasRun : s'.hasRun = (s.hasRun || c.isBuild)
  taken : ∃ entries, c.entries s = .ok (some entries) ∧ entries.length = count ∧
    s'.schema = s.schema.insertAll entries
  kept : ∀ key, (s.schema.lookup key).isSome → (s'.schema.lookup key).isSome
  changed : ∀ key, s'.schema.lookup key ≠ s.schema.lookup key →
    ∃ entry, s'.schema.lookup key = some entry ∧ entry.path = key ∧ c.Yields s entry

/-- A call that comes to a component for which the extraction never ends. -/
def Overflows (s : Session) (c : Call) : Prop :=
  c.isIdle s = false ∧ ∃ root patterns files o P, rootPath c.disk s.options = .ok root ∧
    compilePatterns s.options.ignorePatterns = .ok patterns ∧ c.files root patterns = .ok files ∧
    CompilerOptions.load c.disk s.options.tsconfig = .ok o ∧
    Program.load c.disk.view o files = .ok P ∧ P.entries root files = none

theorem entriesOf_eq_none_iff {d : Disk} {tsconfig root : Path} {files : List Path} :
    entriesOf d tsconfig root files = .ok none ↔ ∃ o P, CompilerOptions.load d tsconfig = .ok o ∧
      Program.load d.view o files = .ok P ∧ P.entries root files = none := by
  cases files with
  | nil =>
    constructor
    · intro h
      cases h
    · rintro ⟨o, P, -, -, h⟩
      cases h
  | cons first rest =>
    constructor
    · intro h
      obtain ⟨o, ho, h⟩ := exists_of_bind_eq_ok h
      obtain ⟨P, hP, h⟩ := exists_of_bind_eq_ok h
      exact ⟨o, P, ho, hP, Except.ok.inj h⟩
    · rintro ⟨o, P, ho, hP, h⟩
      change (CompilerOptions.load d tsconfig >>= _) = _
      rw [ho]
      change (Program.load d.view o (first :: rest) >>= _) = _
      rw [hP, ← h]
      rfl

theorem entries_eq_none_iff {s : Session} {c : Call} :
    c.entries s = .ok none ↔ c.Overflows s := by
  rw [Call.entries, Overflows]
  cases c.isIdle s with
  | true => simp
  | false =>
    rw [if_neg Bool.false_ne_true, and_iff_right rfl]
    constructor
    · intro h
      obtain ⟨root, hroot, h⟩ := exists_of_bind_eq_ok h
      obtain ⟨patterns, hpatterns, h⟩ := exists_of_bind_eq_ok h
      obtain ⟨files, hfiles, h⟩ := exists_of_bind_eq_ok h
      obtain ⟨o, P, ho, hP, h⟩ := entriesOf_eq_none_iff.1 h
      exact ⟨root, patterns, files, o, P, hroot, hpatterns, hfiles, ho, hP, h⟩
    · rintro ⟨root, patterns, files, o, P, hroot, hpatterns, hfiles, ho, hP, h⟩
      rw [hroot]
      change (compilePatterns s.options.ignorePatterns >>= _) = _
      rw [hpatterns]
      change (c.files root patterns >>= _) = _
      rw [hfiles]
      exact entriesOf_eq_none_iff.2 ⟨o, P, ho, hP, h⟩

theorem run_cases (s : Session) (c : Call) :
    (c.run s = none ∧ c.Overflows s) ∨ (∃ e, c.run s = some (.error e, s)) ∨
      ∃ count s', c.run s = some (.ok count, s') ∧ c.Extends s count s' := by
  rw [run_eq]
  cases hentries : c.entries s with
  | error e => exact .inr (.inl ⟨e, rfl⟩)
  | ok found =>
    cases found with
    | none => exact .inl ⟨rfl, entries_eq_none_iff.1 hentries⟩
    | some entries =>
      have hchanged (key : String)
          (hkey : (s.schema.insertAll entries).lookup key ≠ s.schema.lookup key) :
          ∃ entry, (s.schema.insertAll entries).lookup key = some entry ∧ entry.path = key ∧
            c.Yields s entry := by
        obtain ⟨e, he, hpath, hlookup⟩ := Schema.lookup_insertAll hkey
        exact ⟨e, hlookup, hpath, mem_entries hentries he⟩
      refine .inr (.inr ⟨_, _, rfl, rfl, rfl, ⟨entries, hentries, rfl, rfl⟩, ?_, hchanged⟩)
      intro key hkey
      by_cases hsame : (s.schema.insertAll entries).lookup key = s.schema.lookup key
      · exact hsame ▸ hkey
      · obtain ⟨e, hlookup, -⟩ := hchanged key hsame
        exact Option.isSome_of_eq_some hlookup

theorem run_eq_some {s s' : Session} {c : Call} {result : Except Error Nat}
    (h : c.run s = some (result, s')) :
    (∃ e, result = .error e ∧ s' = s) ∨ ∃ count, result = .ok count ∧ c.Extends s count s' := by
  obtain ⟨hrun, -⟩ | ⟨e, hrun⟩ | ⟨count, s'', hrun, hextends⟩ := c.run_cases s
  · rw [hrun] at h
    cases h
  · rw [hrun] at h
    cases h
    exact .inl ⟨e, rfl, rfl⟩
  · rw [hrun] at h
    cases h
    exact .inr ⟨count, rfl, hextends⟩

theorem run_eq_none_iff {s : Session} {c : Call} : c.run s = none ↔ c.Overflows s := by
  rw [run_eq, ← entries_eq_none_iff]
  cases c.entries s with
  | error e => simp [finish]
  | ok found => simp [finish]

end Call

def runAll (s : Session) (calls : List Call) : Option Session :=
  calls.foldlM (fun s c => (c.run s).map (·.2)) s

theorem runAll_append (s : Session) (calls later : List Call) :
    s.runAll (calls ++ later) = (s.runAll calls).bind (·.runAll later) := List.foldlM_append

theorem runAll_cons (s : Session) (c : Call) (calls : List Call) :
    s.runAll (c :: calls) = (c.run s).bind fun r => r.2.runAll calls := by
  rw [runAll, List.foldlM_cons]
  exact Option.bind_map

theorem exists_of_runAll_cons {s s' : Session} {c : Call} {calls : List Call}
    (h : s.runAll (c :: calls) = some s') :
    ∃ result next, c.run s = some (result, next) ∧ next.runAll calls = some s' := by
  rw [runAll_cons] at h
  obtain ⟨⟨result, next⟩, hrun, h⟩ := Option.bind_eq_some_iff.1 h
  exact ⟨result, next, hrun, h⟩

theorem hasRun_runAll {s s' : Session} (h : s.hasRun = true) {calls : List Call}
    (hs' : s.runAll calls = some s') : s'.hasRun = true := by
  induction calls generalizing s with
  | nil => exact Option.some.inj hs' ▸ h
  | cons c calls ih =>
    obtain ⟨result, next, hrun, hrest⟩ := exists_of_runAll_cons hs'
    refine ih ?_ hrest
    obtain ⟨e, -, rfl⟩ | ⟨count, -, hextends⟩ := Call.run_eq_some hrun
    · exact h
    · rw [hextends.hasRun, h]
      rfl

theorem lookup_runAll {s s' : Session} {calls : List Call} (hs' : s.runAll calls = some s')
    {key : String} {entry : SchemaEntry} (h : s'.schema.lookup key = some entry) :
    s.schema.lookup key = some entry ∨ entry.path = key ∧ entry.props ≠ [] := by
  induction calls generalizing s with
  | nil => exact .inl (Option.some.inj hs' ▸ h)
  | cons c calls ih =>
    obtain ⟨result, next, hrun, hrest⟩ := exists_of_runAll_cons hs'
    obtain hstep | hnew := ih hrest
    · obtain ⟨e, -, rfl⟩ | ⟨count, -, hextends⟩ := Call.run_eq_some hrun
      · exact .inl hstep
      · by_cases hsame : next.schema.lookup key = s.schema.lookup key
        · exact .inl (hsame ▸ hstep)
        · obtain ⟨entry', hlookup, hpath, hprops, -⟩ := hextends.changed key hsame
          cases hstep.symm.trans hlookup
          exact .inr ⟨hpath, hprops⟩
    · exact .inr hnew

theorem run_build_of_hasRun {s : Session} (h : s.hasRun = true) (d : Disk) :
    Call.run s (.build d) = some (.ok 0, s) := by
  rw [Call.run_eq, Call.entries, Call.isIdle, h]
  cases s
  simp_all [finish, Call.isBuild, Schema.insertAll]

/-- After any calls that return, a call that fails leaves the session as it is, and one that
succeeds only puts entries of components that it processed into the schema. A call returns unless
the extraction for one of its components never ends. Once a session was built, a build has nothing
to do. -/
theorem history_consistent (o : Options) (S : Schema) (calls : List Call) {s : Session}
    (hs : Session.runAll ⟨o, S, false⟩ calls = some s) :
    (∀ c e s', Call.run s c = some (.error e, s') → s' = s) ∧
    (∀ c count s', Call.run s c = some (.ok count, s') → c.Extends s count s') ∧
    (∀ c, Call.run s c = none ↔ c.Overflows s) ∧
    (∀ key entry, s.schema.lookup key = some entry →
      S.lookup key = some entry ∨ entry.path = key ∧ entry.props ≠ []) ∧
    ∀ before d later count s₀ s₁, calls = before ++ .build d :: later →
      Session.runAll ⟨o, S, false⟩ before = some s₀ →
      Call.run s₀ (.build d) = some (.ok count, s₁) →
        ∀ d', Call.run s (.build d') = some (.ok 0, s) := by
  refine ⟨?_, ?_, fun c => Call.run_eq_none_iff, fun key entry => lookup_runAll hs, ?_⟩
  · intro c e s' hrun
    obtain ⟨-, -, hsame⟩ | ⟨count, hok, -⟩ := Call.run_eq_some hrun
    · exact hsame
    · cases hok
  · intro c count s' hrun
    obtain ⟨e, herror, -⟩ | ⟨count', hok, hextends⟩ := Call.run_eq_some hrun
    · cases herror
    · cases hok
      exact hextends
  · rintro before d later count s₀ s₁ rfl hbefore hrun d'
    refine run_build_of_hasRun ?_ d'
    rw [runAll_append, hbefore, Option.bind_some] at hs
    obtain ⟨result, next, hnext, hrest⟩ := exists_of_runAll_cons hs
    cases hrun.symm.trans hnext
    obtain ⟨e, herror, -⟩ | ⟨count', -, hextends⟩ := Call.run_eq_some hrun
    · cases herror
    · exact hasRun_runAll (hextends.hasRun.trans (Bool.or_true _)) hrest

def cardSource : String := "export default (p: \x7b a: string \x7d) => null;\n"

def cardModule : SourceModule :=
  .read "/src/Card.tsx" cardSource
    [⟨"program", true, "", ⟨0, 43⟩, 1⟩, ⟨"export_statement", true, "", ⟨0, 42⟩, 4⟩,
     ⟨"export", false, "", ⟨0, 6⟩, 0⟩, ⟨"default", false, "", ⟨7, 14⟩, 0⟩,
     ⟨"arrow_function", true, "value", ⟨15, 41⟩, 3⟩,
     ⟨"formal_parameters", true, "parameters", ⟨15, 33⟩, 3⟩, ⟨"(", false, "", ⟨15, 16⟩, 0⟩,
     ⟨"required_parameter", true, "", ⟨16, 32⟩, 2⟩, ⟨"identifier", true, "pattern", ⟨16, 17⟩, 0⟩,
     ⟨"type_annotation", true, "type", ⟨17, 32⟩, 2⟩, ⟨":", false, "", ⟨17, 18⟩, 0⟩,
     ⟨"object_type", true, "", ⟨19, 32⟩, 3⟩, ⟨"\x7b", false, "", ⟨19, 20⟩, 0⟩,
     ⟨"property_signature", true, "", ⟨21, 30⟩, 2⟩,
     ⟨"property_identifier", true, "name", ⟨21, 22⟩, 0⟩,
     ⟨"type_annotation", true, "type", ⟨22, 30⟩, 2⟩, ⟨":", false, "", ⟨22, 23⟩, 0⟩,
     ⟨"predefined_type", true, "", ⟨24, 30⟩, 1⟩, ⟨"string", false, "", ⟨24, 30⟩, 0⟩,
     ⟨"\x7d", false, "", ⟨31, 32⟩, 0⟩, ⟨")", false, "", ⟨32, 33⟩, 0⟩,
     ⟨"=>", false, "", ⟨34, 36⟩, 0⟩, ⟨"null", true, "body", ⟨37, 41⟩, 0⟩,
     ⟨";", false, "", ⟨41, 42⟩, 0⟩]

def cardDisk : Disk where
  root := .directory [
    (⟨"src", by decide⟩, .directory [
      (⟨"Card.tsx", by decide⟩, .file ⟨some cardSource, cardModule.tree⟩)]),
    (⟨"tsconfig.json", by decide⟩, .file ⟨some "\x7b\x7d", .empty⟩)]

def cardOptions : Options := { sourceDir := ⟨"/src"⟩ }

theorem history_consistent_card :
    let start : Session := ⟨cardOptions, [], false⟩
    ∃ s entry, Session.runAll start [.build {}, .build cardDisk] = some s ∧
      Call.run start (.build {}) = some (.error (.unreadableDirectory ⟨"/src"⟩), start) ∧
      Call.run start (.build cardDisk) = some (.ok 1, s) ∧
      (Call.build cardDisk).Extends start 1 s ∧
      s.schema.lookup "Card" = some entry ∧
      entry.props.map (fun p => (p.name, p.type, p.required)) = [("a", "string", true)] ∧
      ∀ d, Call.run s (.build d) = some (.ok 0, s) := by
  intro start
  have hempty : (Call.run start (.build {})).map (·.1) =
      some (.error (.unreadableDirectory ⟨"/src"⟩)) := by
    decide +kernel
  have hcard : (Call.run start (.build cardDisk)).map (fun r => (r.1,
        (r.2.schema.lookup "Card").map (·.props.map fun p => (p.name, p.type, p.required)))) =
      some (.ok 1, some [("a", "string", true)]) := by
    decide +kernel
  obtain ⟨⟨result, s'⟩, hfails, rfl⟩ := Option.map_eq_some_iff.1 hempty
  obtain ⟨⟨result, s⟩, hbuild, hresult⟩ := Option.map_eq_some_iff.1 hcard
  obtain ⟨rfl, hlookup⟩ := Prod.mk.inj hresult
  obtain ⟨entry, hentry, hprops⟩ := Option.map_eq_some_iff.1 hlookup
  have hstart := history_consistent cardOptions [] [] rfl
  obtain rfl := hstart.1 _ _ _ hfails
  have hfirst : start.runAll [.build {}] = some start := by
    rw [runAll_cons, hfails]
    rfl
  have hall : start.runAll [.build {}, .build cardDisk] = some s := by
    rw [runAll_cons, hfails, Option.bind_some, runAll_cons, hbuild]
    rfl
  exact ⟨s, entry, hall, hfails, hbuild, hstart.2.1 _ _ _ hbuild, hentry, hprops,
    (history_consistent cardOptions [] _ hall).2.2.2.2 [.build {}] cardDisk [] 1 start s rfl hfirst
      hbuild⟩

end Session

end PropSchema
