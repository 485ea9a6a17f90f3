import PropSchema.Proofs.Schema.CutOff
import PropSchema.Proofs.Schema.Document
import PropSchema.Proofs.Session.History
import PropSchema.Proofs.Tree.Lines

/-!
Schemas of programs as later sessions find them. The extraction limits how many objects are inside
one another, and the reader of documents how many containers are. The two limits do not fit: each
level of definitions takes two containers, and unions are levels that the extraction does not
count. So there are programs whose schema cannot be read back.
-/

namespace PropSchema

open Json

namespace PropDefinition

mutual

/-- How many definitions of the types that count are inside one another at most. -/
def levels (counts : String → Bool) : PropDefinition → Nat
  | ⟨_, type, _, _, none⟩ => if counts type then 1 else 0
  | ⟨_, type, _, _, some children⟩ => levelsOfAll counts children + if counts type then 1 else 0

def levelsOfAll (counts : String → Bool) : List PropDefinition → Nat
  | [] => 0
  | p :: rest => max (p.levels counts) (levelsOfAll counts rest)

end

def height (p : PropDefinition) : Nat := p.levels fun _ => true

def objects (p : PropDefinition) : Nat := p.levels (· == TypeKind.object.label)

theorem levelsOfAll_le_iff {counts : String → Bool} {ps : List PropDefinition} {n : Nat} :
    levelsOfAll counts ps ≤ n ↔ ∀ p ∈ ps, p.levels counts ≤ n := by
  induction ps with
  | nil => simp [levelsOfAll]
  | cons p ps ih => rw [levelsOfAll, Nat.max_le, ih, List.forall_mem_cons]

mutual

theorem depth_toJson_bounds : ∀ p : PropDefinition,
    p.toJson.depth ≤ 2 * p.height ∧ 2 * p.height ≤ p.toJson.depth + 1
  | ⟨name, type, required, options, none⟩ => by
    rw [depth_toJson, height, levels]
    cases options <;> simp
  | ⟨name, type, required, options, some children⟩ => by
    have hchildren := depth_toJsonAll_bounds children
    rw [depth_toJson, height, levels]
    cases options <;> simp <;> omega

theorem depth_toJsonAll_bounds : ∀ ps : List PropDefinition,
    elementsDepth (toJsonAll ps) ≤ 2 * levelsOfAll (fun _ => true) ps ∧
      2 * levelsOfAll (fun _ => true) ps ≤ elementsDepth (toJsonAll ps) + 1
  | [] => by simp [toJsonAll, elementsDepth, levelsOfAll]
  | p :: ps => by
    have hfirst := depth_toJson_bounds p
    have hrest := depth_toJsonAll_bounds ps
    rw [height] at hfirst
    rw [toJsonAll, elementsDepth, levelsOfAll]
    omega

end

end PropDefinition

namespace Schema

theorem depth_toJson_le_succ_iff (s : Schema) (n : Nat) :
    s.toJson.depth ≤ n + 1 ↔ ∀ pair ∈ s, pair.2.toJson.depth ≤ n := by
  rw [toJson, Value.depth, Nat.add_one_le_add_one_iff]
  induction s with
  | nil => simp [fieldsDepth]
  | cons pair s ih => rw [List.map_cons, fieldsDepth, Nat.max_le, ih, List.forall_mem_cons]

theorem depth_toJson_le_iff (s : Schema) : s.toJson.depth ≤ depthLimit ↔
    ∀ pair ∈ s, ∀ p ∈ pair.2.props, p.height ≤ 62 := by
  have hentry : ∀ e : SchemaEntry, e.toJson.depth ≤ 126 ↔ ∀ p ∈ e.props, p.height ≤ 62 := by
    intro e
    have hprops := PropDefinition.depth_toJsonAll_bounds e.props
    rw [SchemaEntry.depth_toJson]
    refine Iff.trans ?_ PropDefinition.levelsOfAll_le_iff
    omega
  rw [depthLimit, depth_toJson_le_succ_iff]
  exact forall₂_congr fun pair _ => hentry pair.2

theorem ascending_insertAll {s : Schema} (h : SortedMap.Ascending s) (entries : List SchemaEntry) :
    SortedMap.Ascending (s.insertAll entries) := by
  induction entries generalizing s with
  | nil => exact h
  | cons e entries ih => exact ih (SortedMap.ascending_insert h e.path e)

end Schema

namespace TypeTable

variable {t : TypeTable} {expand : TypeId → Option (List PropDefinition)} {name : String}
  {required : Bool} {n : Nat}

theorem objects_propAt (hexpand : ∀ ty ps, expand ty = some ps → ∀ p ∈ ps, p.objects ≤ n)
    {nesting : Nat} {ty : TypeId} {p : PropDefinition}
    (h : t.propAt expand name required nesting ty = some p) : p.objects ≤ n + 1 := by
  induction nesting generalizing ty p with
  | zero => cases h
  | succ nesting ih =>
    have hplain : ∀ type : String, (PropDefinition.plain name type required).objects ≤ n + 1 := by
      intro type
      rw [PropDefinition.plain, PropDefinition.objects, PropDefinition.levels]
      split <;> omega
    have hchoice : ∀ options, (PropDefinition.choice name TypeKind.enumLiteral.label required
        options).objects ≤ n + 1 := fun options => Nat.zero_le _
    simp only [propAt, propByForm] at h
    split at h
    · cases h
      exact hplain _
    split at h
    · split at h
      · cases h
        exact hplain _
      · cases h
        exact hchoice _
      · exact ih h
      · cases h
        exact hplain _
      · obtain ⟨children, hchildren, rfl⟩ := Option.map_eq_some_iff.1 h
        refine PropDefinition.levelsOfAll_le_iff.2 fun c hc => ?_
        obtain ⟨v, -, hv⟩ := mem_mapM hchildren hc
        exact ih hv
    · cases h
      exact hchoice _
    · obtain ⟨children, hchildren, rfl⟩ := Option.map_eq_some_iff.1 h
      exact Nat.succ_le_succ (PropDefinition.levelsOfAll_le_iff.2 (hexpand _ _ hchildren))
    · cases h
      exact hplain _

theorem objects_propsAt {room : Nat} {trail : Trail} {ty : TypeId} {ps : List PropDefinition}
    (h : t.propsAt room trail ty = some ps) : ∀ p ∈ ps, p.objects ≤ room := by
  induction room generalizing trail ty ps with
  | zero =>
    cases h
    exact List.forall_mem_nil _
  | succ room ih =>
    rw [propsAt] at h
    split at h
    · cases h
      exact List.forall_mem_nil _
    · intro p hp
      obtain ⟨m, -, hm⟩ := mem_mapM h hp
      exact objects_propAt (fun _ _ hexpand => ih hexpand) hm

end TypeTable

namespace Program

variable {P : Program} {root : Path}

theorem props_of_mem_entries {files : List Path} {entries : List SchemaEntry} {e : SchemaEntry}
    (h : P.entries root files = some entries) (he : e ∈ entries) :
    ∃ (t : TypeTable) (type : TypeId), t.props type = some e.props := by
  obtain ⟨-, -, file, -, b, hafter⟩ := exists_of_mem_entries h he
  rw [schemaEntry] at hafter
  cases hplace : P.propsPlace? file with
  | none =>
    rw [after_schemaEntry_of_none hplace] at hafter
    cases hafter
  | some place =>
    rw [after_schemaEntry_of_some hplace] at hafter
    exact ⟨_, _, props_of_entryOf hafter⟩

/-- Of what nests in the definitions, the extraction limits the objects only. The schema is read
back as it was exactly if no definitions nest more than 62 deep, and is refused otherwise. -/
theorem reload_schema (P : Program) (root : Path) (files : List Path) (constant : String)
    {entries : List SchemaEntry} (h : P.entries root files = some entries) :
    let schema := Schema.insertAll [] entries
    (∀ e ∈ entries, ∀ p ∈ e.props, p.objects ≤ Trail.limit) ∧
      Schema.decode? (schema.render constant .json) =
        if ∀ pair ∈ schema, ∀ p ∈ pair.2.props, p.height ≤ 62 then some schema else none := by
  intro schema
  constructor
  · intro e he
    obtain ⟨t, type, hprops⟩ := props_of_mem_entries h he
    rw [TypeTable.props, TypeTable.propsWithin, List.length_nil, Nat.sub_zero] at hprops
    exact TypeTable.objects_propsAt hprops
  · have hascending : SortedMap.Ascending schema := Schema.ascending_insertAll .nil _
    rw [Schema.decode?_render_json hascending]
    exact if_congr (Schema.depth_toJson_le_iff _) rfl rfl

def linkName (k : Nat) : String := "L" ++ toString (k + 10)

def link (k : Nat) : Node :=
  let l : SourceLine := ⟨11 * k + 1, 25 * k, k + 1⟩
  let annotation := ": " ++ linkName (k + 1)
  let body := "\x7b n" ++ annotation ++ " \x7d"
  l.node 0 .interfaceDeclaration true none 0 ("interface " ++ linkName k ++ " " ++ body) [
    l.token 1 0 "interface",
    l.node 2 .typeIdentifier true (some .name) 10 (linkName k) [],
    l.node 3 (.other "interface_body") true (some .body) 14 body [
      l.token 4 14 "\x7b",
      l.node 5 .propertySignature true none 16 ("n" ++ annotation) [
        l.node 6 .propertyIdentifier true (some .name) 16 "n" [],
        l.node 7 .annotatedType true (some .type) 17 annotation [
          l.token 8 17 ":",
          l.node 9 .typeIdentifier true none 19 (linkName (k + 1)) []]],
      l.token 10 23 "\x7d"]]

def chained (l : SourceLine) : Node :=
  l.node 0 .exportStatement true none 0 "export default (p: L10) => null;" [
    l.token 1 0 "export",
    l.token 2 7 "default",
    l.node 3 .arrowFunction true (some .value) 15 "(p: L10) => null" [
      l.node 4 (.other "formal_parameters") true (some .parameters) 15 "(p: L10)" [
        l.token 5 15 "(",
        l.node 6 .requiredParameter true none 16 "p: L10" [
          l.node 7 .identifier true (some .pattern) 16 "p" [],
          l.node 8 .annotatedType true (some .type) 17 ": L10" [
            l.token 9 17 ":",
            l.node 10 .typeIdentifier true none 19 "L10" []]],
        l.token 11 22 ")"],
      l.token 12 24 "=>",
      l.node 13 .null true (some .body) 27 "null" []],
    l.token 14 31 ";"]

def chain (n : Nat) : Program :=
  let lines := (List.range n).map link ++ [chained ⟨11 * n + 1, 25 * n, n + 1⟩]
  let source : SourceLine := ⟨0, 0, 1⟩
  let text := String.join (lines.map (·.text ++ "\n"))
  .ofSources [⟨⟨"src/Card.tsx"⟩, source.node 0 (.other "program") true none 0 text lines⟩]

def cardFiles : List Path := [⟨"src/Card.tsx"⟩]

theorem reload_schema_chain :
    ∃ entries, (chain 2).entries ⟨"src"⟩ cardFiles = some entries ∧
      entries.map (·.path) = ["Card"] ∧
      Schema.decode? ((Schema.insertAll [] entries).render "CARD" .json) =
        some (Schema.insertAll [] entries) := by
  have hdepth : ((chain 2).entries ⟨"src"⟩ cardFiles).map (fun entries => (entries.map (·.path),
      (Schema.insertAll [] entries).all fun pair => pair.2.props.all (·.height ≤ 62))) =
        some (["Card"], true) := by
    decide +kernel
  obtain ⟨entries, hentries, heq⟩ := Option.map_eq_some_iff.1 hdepth
  obtain ⟨hpaths, hheight⟩ := Prod.mk.inj heq
  refine ⟨entries, hentries, hpaths, ?_⟩
  rw [(reload_schema (chain 2) ⟨"src"⟩ cardFiles "CARD" hentries).2]
  exact if_pos (by simpa using hheight)

/-- There are fewer objects inside one another than the extraction allows. -/
theorem chain_not_reloaded :
    ∃ entries, (chain 63).entries ⟨"src"⟩ cardFiles = some entries ∧
      Schema.decode? ((Schema.insertAll [] entries).render "CARD" .json) = none := by
  have hdepth : ((chain 63).entries ⟨"src"⟩ cardFiles).map
      (fun entries => (Schema.insertAll [] entries).toJson.depth) = some 128 := by
    decide +kernel
  obtain ⟨entries, hentries, hdepth⟩ := Option.map_eq_some_iff.1 hdepth
  refine ⟨entries, hentries, ?_⟩
  rw [Schema.decode?_render_json (Schema.ascending_insertAll .nil entries), hdepth]
  exact if_neg (by decide)

end Program

end PropSchema
