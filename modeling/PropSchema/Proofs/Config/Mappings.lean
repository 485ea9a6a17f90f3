import PropSchema.Proofs.Config.Wildcards
import PropSchema.Proofs.Json.Reading
import PropSchema.Proofs.Map.Sorted

namespace PropSchema

namespace PathMapping

/-- The paths that a specifier is mapped to, by one mapping after the other: the targets of those
whose pattern stands for it. -/
inductive Maps (specifier : String) : List PathMapping → List String → Prop
  | nil : Maps specifier [] []
  | hit {m mappings captured paths more} : Captures m.pattern specifier captured →
    List.Forall₂ (Fills captured) m.targets paths → Maps specifier mappings more →
    Maps specifier (m :: mappings) (paths ++ more)
  | miss {m mappings paths} : (∀ captured, ¬ Captures m.pattern specifier captured) →
    Maps specifier mappings paths → Maps specifier (m :: mappings) paths

theorem maps_flatMap_apply (specifier : String) (mappings : List PathMapping) :
    Maps specifier mappings (mappings.flatMap (·.apply specifier)) := by
  induction mappings with
  | nil => exact .nil
  | cons m mappings ih =>
    rw [List.flatMap_cons, apply]
    cases hcapture : capture? m.pattern specifier with
    | none =>
      refine .miss (fun captured h => ?_) ih
      rw [capture?_eq_some_iff.2 h] at hcapture
      cases hcapture
    | some captured =>
      refine .hit (capture?_eq_some_iff.1 hcapture) ?_ ih
      rw [List.forall₂_map_right_iff, List.forall₂_same]
      exact fun target _ => fills_substitute target captured

def byPattern (mappings : List PathMapping) : List PathMapping :=
  (SortedMap.ofList (mappings.map fun m => (m.pattern, m.targets))).map fun pair =>
    ⟨pair.1, pair.2⟩

section Order

variable {mappings : List PathMapping}

theorem map_mk_map (mappings : List PathMapping) :
    ((mappings.map fun m => (m.pattern, m.targets)).map fun pair => PathMapping.mk pair.1 pair.2) =
      mappings := by
  rw [List.map_map]
  exact List.map_id _

theorem byPattern_perm (h : (mappings.map (·.pattern)).Nodup) :
    (byPattern mappings).Perm mappings := by
  have hpairs : ((mappings.map fun m => (m.pattern, m.targets)).map (·.1)).Nodup := by
    rwa [List.map_map]
  have hperm := (SortedMap.ofList_perm hpairs).map fun pair => PathMapping.mk pair.1 pair.2
  rwa [map_mk_map] at hperm

theorem pairwise_byPattern (mappings : List PathMapping) :
    (byPattern mappings).Pairwise fun m m' => m.pattern < m'.pattern :=
  List.pairwise_map.2 (SortedMap.ascending_ofList _)

theorem byPattern_eq_self_iff :
    byPattern mappings = mappings ↔ mappings.Pairwise fun m m' => m.pattern < m'.pattern := by
  refine ⟨fun h => h ▸ pairwise_byPattern mappings, fun h => ?_⟩
  have hpairs : SortedMap.Ascending (mappings.map fun m => (m.pattern, m.targets)) :=
    List.pairwise_map.2 h
  rw [byPattern, SortedMap.ofList_eq_self hpairs, map_mk_map]

end Order

def field (m : PathMapping) : Json.Content × Json.Value :=
  (some m.pattern, .array (m.targets.map fun target => .string (some target)))

theorem map_field_injective : Function.Injective (List.map field) := by
  apply List.map_injective_iff.2
  intro m m' h
  obtain ⟨pattern, targets⟩ := m
  obtain ⟨pattern', targets'⟩ := m'
  simp only [field, Prod.mk.injEq, Option.some.injEq, Json.Value.array.injEq] at h
  have hstring : Function.Injective fun target : String => Json.Value.string (some target) :=
    fun _ _ heq => Option.some.inj (Json.Value.string.inj heq)
  rw [h.1, List.map_injective_iff.2 hstring h.2]

end PathMapping

namespace Json

def Value.ListsMappings (settings : Value) (mappings : List PathMapping) : Prop :=
  (settings.field? "paths" 1).elim (mappings = []) (· = .object (mappings.map PathMapping.field))

def Value.WritesMappings (doc : Value) (mappings : List PathMapping) : Prop :=
  (doc.field? "compilerOptions" 0).elim (mappings = []) (·.ListsMappings mappings)

theorem eq_of_decode_strings {depth : Nat} {v : Value} {texts : List String}
    (h : Decoder.list .string depth v = some texts) :
    v = .array (texts.map fun text => .string (some text)) := by
  cases depth with
  | zero => cases h
  | succ depth =>
    cases v with
    | array elements =>
      refine congrArg Value.array (eq_map_of_mapM (fun element text htext => ?_) h)
      cases element with
      | string content =>
        cases htext
        rfl
      | _ => cases htext
    | _ => cases h

theorem exists_mappings_of_decode {depth : Nat} {v : Value} {m : SortedMap (List String)}
    (h : Decoder.map (.list .string) depth v = some m) :
    ∃ mappings : List PathMapping, v = .object (mappings.map PathMapping.field) ∧
      m.map (fun pair => ⟨pair.1, pair.2⟩) = PathMapping.byPattern mappings := by
  cases depth with
  | zero => cases h
  | succ depth =>
    cases v with
    | object fields =>
      obtain ⟨pairs, hpairs, rfl⟩ := Option.map_eq_some_iff.1 h
      have hfields : fields = pairs.map fun pair => PathMapping.field ⟨pair.1, pair.2⟩ := by
        refine eq_map_of_mapM (fun field pair hpair => ?_) hpairs
        obtain ⟨pattern, hpattern, htargets⟩ := Option.bind_eq_some_iff.1 hpair
        obtain ⟨targets, hdecode, rfl⟩ := Option.map_eq_some_iff.1 htargets
        exact Prod.ext hpattern (eq_of_decode_strings hdecode)
      refine ⟨pairs.map fun pair => ⟨pair.1, pair.2⟩, ?_, ?_⟩
      · rw [hfields, List.map_map]
        rfl
      · rw [PathMapping.byPattern, List.map_map]
        exact congrArg (fun pairs => (SortedMap.ofList pairs).map _) (List.map_id pairs).symm
    | _ => cases h

end Json

namespace CompilerOptions

open Json

theorem exists_mappings_of_withDefault {depth : Nat} {field : FieldValue}
    {m : SortedMap (List String)} {settings : Value}
    (h : field.withDefault [] (.map (.list .string)) depth = some m)
    (hfield : field.value? = settings.field? "paths" 1) :
    ∃ mappings, settings.ListsMappings mappings ∧
      m.map (fun pair => ⟨pair.1, pair.2⟩) = PathMapping.byPattern mappings := by
  simp only [Value.ListsMappings, ← hfield]
  cases field with
  | present v =>
    obtain ⟨mappings, hv, hm⟩ := exists_mappings_of_decode h
    exact ⟨mappings, hv, hm⟩
  | absent | cutOff =>
    cases h
    exact ⟨[], rfl, rfl⟩

theorem exists_mappings_of_decodeSettings {directory : Path} {depth : Nat} {settings : Value}
    {o : CompilerOptions} (h : decodeSettings directory depth settings = some o) :
    ∃ mappings, settings.ListsMappings mappings ∧ o.paths = PathMapping.byPattern mappings ∧
      o.configDir = directory := by
  cases depth with
  | zero => cases h
  | succ depth =>
    obtain ⟨fields, hfields, hbuild⟩ := Option.bind_eq_some_iff.1 h
    have hname : ["baseUrl", "paths"][1]? = some "paths" := rfl
    have hpaths := value?_of_recordFields? hfields hname
    dsimp only at hbuild
    split at hbuild
    · obtain ⟨baseUrl, -, hrest⟩ := Option.bind_eq_some_iff.1 hbuild
      obtain ⟨m, hm, ho⟩ := Option.bind_eq_some_iff.1 hrest
      obtain ⟨mappings, hlists, horder⟩ := exists_mappings_of_withDefault hm hpaths
      cases ho
      exact ⟨mappings, hlists, horder, rfl⟩
    · cases hbuild

theorem exists_mappings_of_decode {directory : Path} {depth : Nat} {doc : Value}
    {o : CompilerOptions} (h : decode directory depth doc = some o) :
    ∃ mappings, doc.WritesMappings mappings ∧ o.paths = PathMapping.byPattern mappings ∧
      o.configDir = directory := by
  cases depth with
  | zero => cases h
  | succ depth =>
    obtain ⟨fields, hfields, hbuild⟩ := Option.bind_eq_some_iff.1 h
    have hname : ["compilerOptions"][0]? = some "compilerOptions" := rfl
    have hsettings := value?_of_recordFields? hfields hname
    dsimp only at hbuild
    split at hbuild
    next field =>
      simp only [Value.WritesMappings, ← hsettings]
      cases field with
      | present settings => exact exists_mappings_of_decodeSettings hbuild
      | absent | cutOff =>
        cases hbuild
        exact ⟨[], rfl, rfl, rfl⟩
    next => cases hbuild

/-- The mappings of a document are tried in the order of their patterns, which is the order of the
text only if that is ascending. A specifier leads to the targets of the mappings that stand for it,
one mapping after the other, and then to its place below the base. -/
theorem mappings_by_pattern {text : String} {directory : Path} {o : CompilerOptions}
    (h : parse? text directory = some o) :
    ∃ (doc : Value) (mappings : List PathMapping),
      Spells doc.tokens (Commented.plain text) ∧ doc.WritesMappings mappings ∧
      ((mappings.map (·.pattern)).Nodup → o.paths.Perm mappings ∧
        (o.paths.Pairwise fun m m' => m.pattern < m'.pattern) ∧
        (o.paths = mappings ↔ mappings.Pairwise fun m m' => m.pattern < m'.pattern)) ∧
      ∀ specifier, ∃ paths, PathMapping.Maps specifier o.paths paths ∧
        o.bases specifier = paths.map (o.baseUrl.getD directory).join ++
          o.baseUrl.toList.map (·.join specifier) := by
  obtain ⟨doc, hdoc, hdecode⟩ := Option.bind_eq_some_iff.1 h
  obtain ⟨mappings, hwrites, hpaths, hdirectory⟩ := exists_mappings_of_decode hdecode
  refine ⟨doc, mappings, parse?_eq_some_iff.1 hdoc, hwrites, fun hdistinct => ?_,
    fun specifier => ?_⟩
  · rw [hpaths]
    exact ⟨PathMapping.byPattern_perm hdistinct, PathMapping.pairwise_byPattern mappings,
      PathMapping.byPattern_eq_self_iff⟩
  · refine ⟨_, PathMapping.maps_flatMap_apply specifier o.paths, ?_⟩
    rw [bases, hdirectory]

namespace Overlap

def anything : PathMapping := ⟨"*", ["lib/*"]⟩

def components : PathMapping := ⟨"@ui/*", ["ui/*"]⟩

def generalFirst : String :=
  "\x7b\"compilerOptions\":\x7b//\n\"baseUrl\":\"src\",\"paths\":\x7b" ++
    "\"*\":[\"lib/*\"],\"@ui/*\":[\"ui/*\"],\x7d\x7d\x7d"

def specificFirst : String :=
  "\x7b\"compilerOptions\":\x7b\"paths\":\x7b\"@ui/*\":[\"ui/*\"],\"*\":[\"lib/*\"]\x7d\x7d\x7d"

def generalFirstValue : Value :=
  .object [(some "compilerOptions", .object [(some "baseUrl", .string (some "src")),
    (some "paths", .object ([anything, components].map PathMapping.field))])]

theorem parse?_of_tokens {text : String} {v : Value} (h : tokens? text.toList = some v.tokens) :
    Json.parse? text = some v := by
  rw [Json.parse?, h, Option.bind_eq_bind, Option.bind_some, ofTokens?_tokens]

theorem mappings_by_pattern_generalFirst :
    let o : CompilerOptions := ⟨some ⟨"/app/src"⟩, [anything, components], ⟨"/app"⟩⟩
    parse? generalFirst ⟨"/app"⟩ = some o ∧
      Spells generalFirstValue.tokens (Commented.plain generalFirst) ∧
      generalFirstValue.WritesMappings [anything, components] ∧
      o.paths.Perm [anything, components] ∧
      (o.paths.Pairwise fun m m' => m.pattern < m'.pattern) ∧
      (∃ paths, PathMapping.Maps "@ui/Button" o.paths paths ∧
        o.bases "@ui/Button" = paths.map (Path.join ⟨"/app/src"⟩) ++ [⟨"/app/src/@ui/Button"⟩]) ∧
      o.bases "@ui/Button" =
        [⟨"/app/src/lib/@ui/Button"⟩, ⟨"/app/src/ui/Button"⟩, ⟨"/app/src/@ui/Button"⟩] := by
  intro o
  have hparse : parse? generalFirst ⟨"/app"⟩ = some o := by decide +kernel
  have hvalue : Json.parse? (Commented.plain generalFirst) = some generalFirstValue :=
    parse?_of_tokens (by decide +kernel)
  obtain ⟨doc, mappings, hspells, hwrites, horder, hbases⟩ := mappings_by_pattern hparse
  obtain rfl : generalFirstValue = doc :=
    Option.some.inj (hvalue.symm.trans (parse?_eq_some_iff.2 hspells))
  obtain rfl : [anything, components] = mappings :=
    PathMapping.map_field_injective (Value.object.inj hwrites)
  obtain ⟨hperm, hascending, -⟩ := horder (by decide)
  exact ⟨hparse, hspells, hwrites, hperm, hascending, hbases "@ui/Button", by decide +kernel⟩

def specificFirstValue : Value :=
  .object [(some "compilerOptions", .object [(some "paths",
    .object ([components, anything].map PathMapping.field))])]

/-- The specific pattern is written first and tried last. -/
theorem mappings_out_of_order :
    let o : CompilerOptions := ⟨none, [anything, components], ⟨"/app"⟩⟩
    Spells specificFirstValue.tokens (Commented.plain specificFirst) ∧
      specificFirstValue.WritesMappings [components, anything] ∧
      ([components, anything].map (·.pattern)).Nodup ∧
      parse? specificFirst ⟨"/app"⟩ = some o ∧ o.paths ≠ [components, anything] ∧
      o.bases "@ui/Button" =
        [⟨"/app/lib/@ui/Button"⟩, ⟨"/app/ui/Button"⟩] := by
  have hvalue : Json.parse? (Commented.plain specificFirst) = some specificFirstValue :=
    parse?_of_tokens (by decide +kernel)
  have hparse : parse? specificFirst ⟨"/app"⟩ = some ⟨none, [anything, components], ⟨"/app"⟩⟩ := by
    rw [parse?, decode?, hvalue]
    rfl
  exact ⟨parse?_eq_some_iff.1 hvalue, rfl, by decide, hparse, by decide, by decide +kernel⟩

end Overlap

end CompilerOptions

end PropSchema
