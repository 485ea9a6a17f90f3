import PropSchema.Proofs.Binding.Inheritance
import PropSchema.Proofs.Binding.Order
import PropSchema.Proofs.Component.Requests
import PropSchema.Proofs.Schema.Embedding

namespace PropSchema

open Bindings Binder Relabelling

namespace Follows

variable {e s : Bindings} {own : TypeId → Owner} {ρ : Relabelling}

theorem empty (e : Bindings) (own : TypeId → Owner) : Follows e own (self fun _ => False) {} where
  dom id := (iff_false_intro (Nat.not_lt_zero id)).symm
  entry _ hid := hid.elim
  found handle _ h := by cases handle <;> cases h
  origin _ hid := hid.elim

theorem embeds (h : Follows e own ρ s) (hclosed : ∀ id < s.table.size, ¬ s.table.IsOpen id) :
    TypeTable.Embeds ρ s.table e.table where
  dom := h.dom
  lt id hid := by
    have htakes := h.entry id ((h.dom id).2 hid) (hclosed id hid)
    apply TypeTable.lt_size_of_not_isOpen
    intro hopen
    apply hclosed id hid
    have heq := htakes.2
    rw [hopen] at heq
    exact Relabelled.rename_injective ρ.perm heq.symm
  mirrors id hid := h.entry id hid (hclosed id ((h.dom id).1 hid))

end Follows

namespace Program

variable {P : Program} {files : List FileId} {file : FileId}

def visit (P : Program) (file : FileId) : Dialogue Unit :=
  match P.propsPlace? file with
  | some (place, n) => discard (Dialogue.typeOf ⟨place, []⟩ n)
  | none => return

def visits (P : Program) (files : List FileId) : Dialogue Unit := forM files P.visit

/-- While the modules are processed, one after the other, nothing is read that depends on how open
slots are completed, and nothing is nested too deep. -/
structure Undisturbed (P : Program) (files : List FileId) : Prop where
  watched : (P.binderAt bindLevels).Watched P.steadiness (P.WatchedAt P.steadiness bindLevels) none
    (P.visits files) {}

def processed (P : Program) (root : Path) (files : List FileId) : Bindings :=
  (({} : Bindings).after (forM files fun file => discard (P.schemaEntry root file))).2

theorem after_visit (b : Bindings) (root : Path) (file : FileId) :
    (b.after ((P.binderAt bindLevels).run (P.visit file))).2 =
      (b.after (P.schemaEntry root file)).2 := by
  rw [visit, schemaEntry]
  cases h : P.propsPlace? file with
  | none => rw [after_schemaEntry_of_none h]; rfl
  | some place => rw [after_schemaEntry_of_some h]; rfl

theorem after_visits (b : Bindings) (root : Path) (files : List FileId) :
    (b.after ((P.binderAt bindLevels).run (P.visits files))).2 =
      (b.after (forM files fun file => discard (P.schemaEntry root file))).2 := by
  induction files generalizing b with
  | nil => rfl
  | cons file files ih =>
    rw [visits, List.forM_cons, after_run_bind, after_visit b root, List.forM_cons]
    exact ih _

theorem visits_concat (files : List FileId) (file : FileId) :
    P.visits (files ++ [file]) = P.visits files >>= fun _ => P.visit file := by
  simp [visits]

theorem Undisturbed.exists_finished (h : P.Undisturbed files) (hP : P.Numbered) :
    let e := (({} : Bindings).after ((P.binderAt bindLevels).run (P.visits files))).2
    ∃ own, (P.binderAt bindLevels).Watched (P.steadiness.marked own)
        (P.WatchedAt (P.steadiness.marked own) bindLevels) none (P.visits files) {} ∧
      P.Finished own e := by
  intro e
  have hgrows := P.closed_grows.kept_binderAt bindLevels
  obtain ⟨own, hown⟩ := assignable_run hgrows (fun _ _ _ _ => assignable_watchedAt) h.watched
  have hwatched := hown own fun _ _ _ => rfl
  have hempty : Regular {} := ⟨.empty, .empty⟩
  refine ⟨own, hwatched, hempty.run P bindLevels _, fun d slot hd hslot => ?_⟩
  exact chronicled_run (fun _ _ _ _ => chronicled_watchedAt hP) hwatched hempty
    (Grows.refl e).matures d slot hd rfl hslot

theorem watchedAt_of_visit {w : Watch} {b : Bindings} {place : FileId × Node}
    (hplace : P.propsPlace? file = some place)
    (h : (P.binderAt bindLevels).Watched w (P.WatchedAt w bindLevels) none (P.visit file) b) :
    P.WatchedAt w bindLevels none b ⟨place.1, []⟩ place.2 := by
  rw [visit, hplace] at h
  exact h.1

/-- Where nothing is read of open slots, the props of a node are the same at the start and later. -/
theorem props_retraced {own : TypeId → Owner} {b : Bindings} {scope : Scope} {n : Node}
    (hb : b.Regular) (hw : P.WatchedAt P.steadiness bindLevels none {} scope n)
    (hw' : P.WatchedAt (P.steadiness.marked own) bindLevels none b scope n)
    (he : P.Finished own (b.after (P.binderAt bindLevels scope n)).2) :
    let r := ({} : Bindings).after (P.binderAt bindLevels scope n)
    let r' := b.after (P.binderAt bindLevels scope n)
    r.2.table.props r.1 = r'.2.table.props r'.1 := by
  intro r r'
  obtain ⟨ρ, -, hs, -, -, htype⟩ := retraces he bindLevels bindLevels _ none {} b scope n
    (.empty _ own) (fun _ hid => hid.elim) trivial hb hw hw' (Grows.refl _).matures
  have hbuilds := P.closed_builds.kept_binderAt bindLevels scope n {}
  have hembeds := hs.embeds fun id hid => hbuilds.closed id (Nat.zero_le id) hid
  exact hembeds.props_eq htype

/-- Processed after others, a module has the entry that it has alone. -/
theorem schemaEntry_eq_alone (hP : P.Numbered) (root : Path) (h : P.Undisturbed (files ++ [file]))
    (halone : P.Undisturbed [file]) :
    ((P.processed root files).after (P.schemaEntry root file)).1 =
      (({} : Bindings).after (P.schemaEntry root file)).1 := by
  have hstart : (P.processed root files).Regular := by
    rw [processed, ← after_visits]
    exact Regular.run ⟨.empty, .empty⟩ P bindLevels (P.visits files)
  obtain ⟨own, hwatched, he⟩ := h.exists_finished hP
  rw [visits_concat, after_run_bind, after_visit _ root, after_visits _ root] at he
  rw [visits_concat, watched_bind, after_visits _ root] at hwatched
  rw [schemaEntry] at he ⊢
  cases hplace : P.propsPlace? file with
  | none => rw [after_schemaEntry_of_none hplace, after_schemaEntry_of_none hplace]
  | some place =>
    rw [after_schemaEntry_of_some hplace] at he
    rw [after_schemaEntry_of_some hplace, after_schemaEntry_of_some hplace]
    have hw := watchedAt_of_visit hplace (watched_bind.1 halone.watched).1
    have hw' := watchedAt_of_visit hplace hwatched.2
    simp only [entryOf]
    rw [props_retraced hstart hw hw' he]

def componentModule (path name : String) : SourceModule :=
  let k := name.length
  .read path
    ("import \x7b " ++ name ++ " \x7d from './types';\n" ++
      "export default (p: " ++ name ++ ") => null;\n")
    [⟨"program", true, "", ⟨0, 58 + 2 * k⟩, 2⟩, ⟨"import_statement", true, "", ⟨0, 27 + k⟩, 5⟩,
     ⟨"import", false, "", ⟨0, 6⟩, 0⟩, ⟨"import_clause", true, "", ⟨7, 11 + k⟩, 1⟩,
     ⟨"named_imports", true, "", ⟨7, 11 + k⟩, 3⟩, ⟨"\x7b", false, "", ⟨7, 8⟩, 0⟩,
     ⟨"import_specifier", true, "", ⟨9, 9 + k⟩, 1⟩, ⟨"identifier", true, "name", ⟨9, 9 + k⟩, 0⟩,
     ⟨"\x7d", false, "", ⟨10 + k, 11 + k⟩, 0⟩, ⟨"from", false, "", ⟨12 + k, 16 + k⟩, 0⟩,
     ⟨"string", true, "source", ⟨17 + k, 26 + k⟩, 3⟩, ⟨"'", false, "", ⟨17 + k, 18 + k⟩, 0⟩,
     ⟨"string_fragment", true, "", ⟨18 + k, 25 + k⟩, 0⟩, ⟨"'", false, "", ⟨25 + k, 26 + k⟩, 0⟩,
     ⟨";", false, "", ⟨26 + k, 27 + k⟩, 0⟩,
     ⟨"export_statement", true, "", ⟨28 + k, 57 + 2 * k⟩, 4⟩,
     ⟨"export", false, "", ⟨28 + k, 34 + k⟩, 0⟩, ⟨"default", false, "", ⟨35 + k, 42 + k⟩, 0⟩,
     ⟨"arrow_function", true, "value", ⟨43 + k, 56 + 2 * k⟩, 3⟩,
     ⟨"formal_parameters", true, "parameters", ⟨43 + k, 48 + 2 * k⟩, 3⟩,
     ⟨"(", false, "", ⟨43 + k, 44 + k⟩, 0⟩,
     ⟨"required_parameter", true, "", ⟨44 + k, 47 + 2 * k⟩, 2⟩,
     ⟨"identifier", true, "pattern", ⟨44 + k, 45 + k⟩, 0⟩,
     ⟨"type_annotation", true, "type", ⟨45 + k, 47 + 2 * k⟩, 2⟩,
     ⟨":", false, "", ⟨45 + k, 46 + k⟩, 0⟩,
     ⟨"type_identifier", true, "", ⟨47 + k, 47 + 2 * k⟩, 0⟩,
     ⟨")", false, "", ⟨47 + 2 * k, 48 + 2 * k⟩, 0⟩,
     ⟨"=>", false, "", ⟨49 + 2 * k, 51 + 2 * k⟩, 0⟩,
     ⟨"null", true, "body", ⟨52 + 2 * k, 56 + 2 * k⟩, 0⟩,
     ⟨";", false, "", ⟨56 + 2 * k, 57 + 2 * k⟩, 0⟩]

def namedModule : SourceModule :=
  .read "src/types.ts"
    ("export interface Named \x7b name: string \x7d\n" ++
      "export interface Item extends Named \x7b owner?: Group \x7d\n" ++
      "export interface Group extends Named \x7b items: Item[] \x7d\n")
    [⟨"program", true, "", ⟨0, 149⟩, 3⟩, ⟨"export_statement", true, "", ⟨0, 39⟩, 2⟩,
     ⟨"export", false, "", ⟨0, 6⟩, 0⟩, ⟨"interface_declaration", true, "declaration", ⟨7, 39⟩, 3⟩,
     ⟨"interface", false, "", ⟨7, 16⟩, 0⟩, ⟨"type_identifier", true, "name", ⟨17, 22⟩, 0⟩,
     ⟨"interface_body", true, "body", ⟨23, 39⟩, 3⟩, ⟨"\x7b", false, "", ⟨23, 24⟩, 0⟩,
     ⟨"property_signature", true, "", ⟨25, 37⟩, 2⟩,
     ⟨"property_identifier", true, "name", ⟨25, 29⟩, 0⟩,
     ⟨"type_annotation", true, "type", ⟨29, 37⟩, 2⟩, ⟨":", false, "", ⟨29, 30⟩, 0⟩,
     ⟨"predefined_type", true, "", ⟨31, 37⟩, 1⟩, ⟨"string", false, "", ⟨31, 37⟩, 0⟩,
     ⟨"\x7d", false, "", ⟨38, 39⟩, 0⟩, ⟨"export_statement", true, "", ⟨40, 93⟩, 2⟩,
     ⟨"export", false, "", ⟨40, 46⟩, 0⟩,
     ⟨"interface_declaration", true, "declaration", ⟨47, 93⟩, 4⟩,
     ⟨"interface", false, "", ⟨47, 56⟩, 0⟩, ⟨"type_identifier", true, "name", ⟨57, 61⟩, 0⟩,
     ⟨"extends_type_clause", true, "", ⟨62, 75⟩, 2⟩, ⟨"extends", false, "", ⟨62, 69⟩, 0⟩,
     ⟨"type_identifier", true, "type", ⟨70, 75⟩, 0⟩, ⟨"interface_body", true, "body", ⟨76, 93⟩, 3⟩,
     ⟨"\x7b", false, "", ⟨76, 77⟩, 0⟩, ⟨"property_signature", true, "", ⟨78, 91⟩, 3⟩,
     ⟨"property_identifier", true, "name", ⟨78, 83⟩, 0⟩, ⟨"?", false, "", ⟨83, 84⟩, 0⟩,
     ⟨"type_annotation", true, "type", ⟨84, 91⟩, 2⟩, ⟨":", false, "", ⟨84, 85⟩, 0⟩,
     ⟨"type_identifier", true, "", ⟨86, 91⟩, 0⟩, ⟨"\x7d", false, "", ⟨92, 93⟩, 0⟩,
     ⟨"export_statement", true, "", ⟨94, 148⟩, 2⟩, ⟨"export", false, "", ⟨94, 100⟩, 0⟩,
     ⟨"interface_declaration", true, "declaration", ⟨101, 148⟩, 4⟩,
     ⟨"interface", false, "", ⟨101, 110⟩, 0⟩, ⟨"type_identifier", true, "name", ⟨111, 116⟩, 0⟩,
     ⟨"extends_type_clause", true, "", ⟨117, 130⟩, 2⟩, ⟨"extends", false, "", ⟨117, 124⟩, 0⟩,
     ⟨"type_identifier", true, "type", ⟨125, 130⟩, 0⟩,
     ⟨"interface_body", true, "body", ⟨131, 148⟩, 3⟩, ⟨"\x7b", false, "", ⟨131, 132⟩, 0⟩,
     ⟨"property_signature", true, "", ⟨133, 146⟩, 2⟩,
     ⟨"property_identifier", true, "name", ⟨133, 138⟩, 0⟩,
     ⟨"type_annotation", true, "type", ⟨138, 146⟩, 2⟩, ⟨":", false, "", ⟨138, 139⟩, 0⟩,
     ⟨"array_type", true, "", ⟨140, 146⟩, 3⟩, ⟨"type_identifier", true, "", ⟨140, 144⟩, 0⟩,
     ⟨"[", false, "", ⟨144, 145⟩, 0⟩, ⟨"]", false, "", ⟨145, 146⟩, 0⟩,
     ⟨"\x7d", false, "", ⟨147, 148⟩, 0⟩]

def twoComponents (types : SourceModule) : Program :=
  .ofSources [componentModule "src/A.tsx" "Item", componentModule "src/B.tsx" "Group", types]

theorem numbered_twoComponents {types : SourceModule} (h : types.tree.Numbered) :
    (twoComponents types).Numbered := by
  apply numbered_ofSources
  intro m hm
  simp only [List.mem_cons, List.not_mem_nil, or_false] at hm
  obtain rfl | rfl | rfl := hm
  · exact SourceModule.numbered_read _ _ _
  · exact SourceModule.numbered_read _ _ _
  · exact h

theorem undisturbed_of_known {solids : List Declaration}
    (hsolids : ∀ d ∈ solids, P.Has d ∧ d.isSolid)
    (h : (P.binderAt bindLevels).Watched (.known solids) (P.WatchedAt (.known solids) bindLevels)
      none (P.visits files) {}) : P.Undisturbed files :=
  ⟨h.imp (Watch.implies_known hsolids) fun _ _ _ _ => WatchedAt.imp (Watch.implies_known hsolids)⟩

def namedDeclarations : List Declaration :=
  ["Item", "Group"].filterMap ((twoComponents namedModule).resolve? .type 2)

theorem isSolid_namedDeclarations :
    ∀ d ∈ namedDeclarations, (twoComponents namedModule).Has d ∧ d.isSolid := by
  have hsolid : ∀ d ∈ namedDeclarations, d.isSolid := by decide +kernel
  intro d hd
  obtain ⟨name, -, hname⟩ := List.mem_filterMap.1 hd
  exact ⟨has_of_resolve? hname, hsolid d hd⟩

theorem undisturbed_namedModule :
    (twoComponents namedModule).Undisturbed [0, 1] ∧
      (twoComponents namedModule).Undisturbed [1] := by
  refine ⟨undisturbed_of_known isSolid_namedDeclarations ?_,
    undisturbed_of_known isSolid_namedDeclarations ?_⟩
  · decide +kernel
  · decide +kernel

theorem group_after_item :
    let P := twoComponents namedModule
    P.Numbered ∧ P.Undisturbed [0, 1] ∧ P.Undisturbed [1] ∧
      ((P.processed ⟨"src"⟩ [0]).after (P.schemaEntry ⟨"src"⟩ 1)).1 =
        (({} : Bindings).after (P.schemaEntry ⟨"src"⟩ 1)).1 ∧
      (({} : Bindings).after (P.schemaEntry ⟨"src"⟩ 1)).1.map (·.map (·.props.map (·.name))) =
        some (some ["items", "name"]) := by
  intro P
  have hP : P.Numbered := numbered_twoComponents (SourceModule.numbered_read _ _ _)
  obtain ⟨h, halone⟩ := undisturbed_namedModule
  refine ⟨hP, h, halone, ?_, ?_⟩
  · exact schemaEntry_eq_alone hP ⟨"src"⟩ h halone
  · decide +kernel

/-- `Group` extends `Item`, whose members it reads too early if `Item` leads to it. -/
theorem group_entry_depends_on_order :
    let P := twoComponents ownedModule
    let names := Option.map (Option.map fun e : SchemaEntry => e.props.map (·.name))
    names ((P.processed ⟨"src"⟩ [0]).after (P.schemaEntry ⟨"src"⟩ 1)).1 = some (some ["label"]) ∧
      names (({} : Bindings).after (P.schemaEntry ⟨"src"⟩ 1)).1 =
        some (some ["label", "id", "owner"]) := by
  decide +kernel

end Program

end PropSchema
