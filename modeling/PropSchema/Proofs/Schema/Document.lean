import PropSchema.Proofs.Json.Printing
import PropSchema.Proofs.Map.Sorted
import PropSchema.Schema.Document

namespace PropSchema

namespace Json

mutual

def Value.depth : Value → Nat
  | .array elements => elementsDepth elements + 1
  | .object fields => fieldsDepth fields + 1
  | _ => 0

def elementsDepth : List Value → Nat
  | [] => 0
  | v :: rest => max v.depth (elementsDepth rest)

def fieldsDepth : List (Content × Value) → Nat
  | [] => 0
  | (_, v) :: rest => max v.depth (fieldsDepth rest)

end

end Json

open Json

theorem cons_of_room {α : Type} {a b depth : Nat} (x : α) (xs : List α) :
    ((if a ≤ depth then some x else none) >>= fun x =>
      (if b ≤ depth then some xs else none) >>= fun xs => pure (x :: xs)) =
      if max a b ≤ depth then some (x :: xs) else none := by
  by_cases ha : a ≤ depth
  · by_cases hb : b ≤ depth
    · rw [if_pos ha, if_pos hb, if_pos (Nat.max_le.2 ⟨ha, hb⟩)]
      rfl
    · rw [if_pos ha, if_neg hb, if_neg fun h => hb (Nat.max_le.1 h).2]
      rfl
  · rw [if_neg ha, if_neg fun h => ha (Nat.max_le.1 h).1]
    rfl

namespace PropDefinition

def fieldValues (p : PropDefinition) : List FieldValue :=
  [.present (.string (some p.name)), .present (.string (some p.type)), .present (.bool p.required),
    p.options.elim .absent fun os => .present (.array (os.map fun o => .string (some o))),
    p.children.elim .absent fun children => .present (.array (toJsonAll children))]

theorem recordFields?_toJson (p : PropDefinition) :
    recordFields? fieldNames p.toJson = some p.fieldValues := by
  obtain ⟨name, type, required, options, children⟩ := p
  cases options <;> cases children <;> simp only [toJson] <;> rfl

theorem decode_succ (depth : Nat) (v : Value) :
    decode (depth + 1) v = decodeWith (Decoder.list decode depth) (depth + 1) v := by
  cases depth with
  | zero => rfl
  | succ depth =>
    rw [decode]
    congr 1
    funext v
    cases v <;> rfl

theorem list_strings (options : List String) (depth : Nat) :
    Decoder.list .string depth (.array (options.map fun o => .string (some o))) =
      if 1 ≤ depth then some options else none := by
  cases depth with
  | zero => rfl
  | succ depth =>
    rw [if_pos (Nat.le_add_left 1 depth), Decoder.list, List.mapM_map]
    exact List.mapM_pure.trans (congrArg some (List.map_id options))

theorem elementsDepth_strings (options : List String) :
    elementsDepth (options.map fun o => .string (some o)) = 0 := by
  induction options with
  | nil => rfl
  | cons o options ih => simp [elementsDepth, Value.depth, ih]

theorem depth_toJson (p : PropDefinition) : p.toJson.depth =
    max (p.options.elim 0 fun _ => 1)
      (p.children.elim 0 fun children => elementsDepth (toJsonAll children) + 1) + 1 := by
  obtain ⟨name, type, required, options, children⟩ := p
  cases options <;> cases children <;>
    simp [toJson, Value.depth, fieldsDepth, elementsDepth_strings]

theorem nullable_array {α : Type} (d : Decoder α) (depth : Nat) (elements : List Value) :
    d.nullable depth (.array elements) = (d depth (.array elements)).map some := rfl

theorem decodeWith_toJson (nested : Value → Option (List PropDefinition)) (depth : Nat)
    (p : PropDefinition) : decodeWith nested (depth + 1) p.toJson = do
      let options ← p.options.elim (some none) fun os => if 1 ≤ depth then some (some os) else none
      let children ← p.children.elim (some none) fun cs => (nested (.array (toJsonAll cs))).map some
      return { p with options, children } := by
  rw [decodeWith, record, recordFields?_toJson]
  obtain ⟨name, type, required, options, children⟩ := p
  cases options <;> cases children <;>
    simp [fieldValues, FieldValue.required, FieldValue.withDefault, Decoder.string, Decoder.bool,
      nullable_array, list_strings, apply_ite (Option.map some)]

mutual

theorem decode_toJson : ∀ (p : PropDefinition) (depth : Nat),
    decode depth p.toJson = if p.toJson.depth ≤ depth then some p else none
  | p, 0 => by
    rw [depth_toJson, if_neg (Nat.not_succ_le_zero _), decode]
  | ⟨name, type, required, options, none⟩, depth + 1 => by
    rw [decode_succ, decodeWith_toJson, depth_toJson]
    cases options with
    | none => simp
    | some os => by_cases h : 1 ≤ depth <;> simp [h]
  | ⟨name, type, required, options, some children⟩, depth + 1 => by
    rw [decode_succ, decodeWith_toJson, depth_toJson]
    have hlist := list_toJsonAll children depth
    simp only [Option.elim, hlist]
    by_cases h : elementsDepth (toJsonAll children) + 1 ≤ depth
    · have hroom : 1 ≤ depth := by omega
      cases options <;> simp [h, hroom]
    · cases options <;> simp [h]

theorem list_toJsonAll : ∀ (ps : List PropDefinition) (depth : Nat),
    Decoder.list decode depth (.array (toJsonAll ps)) =
      if elementsDepth (toJsonAll ps) + 1 ≤ depth then some ps else none
  | _, 0 => rfl
  | [], depth + 1 => by
    rw [toJsonAll, elementsDepth, if_pos (Nat.le_add_left 1 depth)]
    rfl
  | p :: ps, depth + 1 => by
    have hfirst := decode_toJson p depth
    have hrest := list_toJsonAll ps (depth + 1)
    rw [Decoder.list] at hrest
    rw [toJsonAll, elementsDepth, Decoder.list, List.mapM_cons, hfirst, hrest]
    simp only [Nat.add_le_add_iff_right]
    exact cons_of_room p ps

end

theorem arePrintable_strings (options : List String) :
    ArePrintable (options.map fun o => .string (some o)) := by
  induction options with
  | nil => trivial
  | cons o options ih => exact ⟨rfl, ih⟩

mutual

theorem isPrintable_toJson : ∀ p : PropDefinition, p.toJson.IsPrintable
  | ⟨name, type, required, options, none⟩ => by
    cases options <;>
      simp [toJson, Value.IsPrintable, FieldsPrintable, arePrintable_strings]
  | ⟨name, type, required, options, some children⟩ => by
    have hchildren := arePrintable_toJsonAll children
    cases options <;>
      simp [toJson, Value.IsPrintable, FieldsPrintable, arePrintable_strings, hchildren]

theorem arePrintable_toJsonAll : ∀ ps : List PropDefinition, ArePrintable (toJsonAll ps)
  | [] => trivial
  | p :: ps => ⟨isPrintable_toJson p, arePrintable_toJsonAll ps⟩

end

end PropDefinition

namespace SchemaEntry

theorem depth_toJson (e : SchemaEntry) :
    e.toJson.depth = elementsDepth (PropDefinition.toJsonAll e.props) + 2 := by
  simp [toJson, Value.depth, fieldsDepth]

theorem decode_toJson (e : SchemaEntry) (depth : Nat) :
    decode depth e.toJson = if e.toJson.depth ≤ depth then some e else none := by
  rw [depth_toJson]
  cases depth with
  | zero => rfl
  | succ depth =>
    have hfields : recordFields? ["path", "props"] e.toJson =
        some [.present (.string (some e.path)),
          .present (.array (PropDefinition.toJsonAll e.props))] := rfl
    rw [decode, record, hfields]
    by_cases h : elementsDepth (PropDefinition.toJsonAll e.props) + 1 ≤ depth <;>
      simp [FieldValue.required, Decoder.string, PropDefinition.list_toJsonAll, h]

theorem isPrintable_toJson (e : SchemaEntry) : e.toJson.IsPrintable :=
  ⟨rfl, rfl, rfl, PropDefinition.arePrintable_toJsonAll e.props, trivial⟩

end SchemaEntry

namespace Schema

theorem isPrintable_toJson (s : Schema) : s.toJson.IsPrintable := by
  rw [toJson, Value.IsPrintable]
  induction s with
  | nil => trivial
  | cons pair s ih => exact ⟨rfl, pair.2.isPrintable_toJson, ih⟩

theorem mapM_toJson (s : Schema) (depth : Nat) :
    (s.map fun (key, entry) => ((some key : Content), entry.toJson)).mapM
        (fun (f : Content × Value) =>
          f.1.bind fun key => (SchemaEntry.decode depth f.2).map (key, ·)) =
      if fieldsDepth (s.map fun (key, entry) => (some key, entry.toJson)) ≤ depth then some s
      else none := by
  induction s with
  | nil => simp [fieldsDepth]
  | cons pair s ih =>
    rw [List.map_cons, List.mapM_cons, ih, fieldsDepth, Option.bind_some,
      SchemaEntry.decode_toJson, apply_ite (Option.map _)]
    exact cons_of_room pair s

theorem decode_toJson {s : Schema} (h : SortedMap.Ascending s) (depth : Nat) :
    Decoder.map SchemaEntry.decode depth s.toJson =
      if s.toJson.depth ≤ depth then some s else none := by
  cases depth with
  | zero => rfl
  | succ depth =>
    rw [toJson, Decoder.map, mapM_toJson, Value.depth]
    by_cases hroom : fieldsDepth (s.map fun (key, entry) => (some key, entry.toJson)) ≤ depth <;>
      simp [hroom, SortedMap.ofList_eq_self h]

theorem decode?_of_spells {s : Schema} (h : SortedMap.Ascending s) {text : String}
    (htext : Spells s.toJson.tokens text) :
    decode? text = if s.toJson.depth ≤ depthLimit then some s else none := by
  rw [decode?, Json.decode?, htext.parse?_eq]
  exact decode_toJson h depthLimit

theorem decode?_print {s : Schema} (h : SortedMap.Ascending s) (l : Layout) :
    decode? (s.toJson.print l 0) = if s.toJson.depth ≤ depthLimit then some s else none :=
  decode?_of_spells h (s.toJson.spells_print l 0 s.isPrintable_toJson)

theorem decode?_render_json {s : Schema} (h : SortedMap.Ascending s) (constant : String) :
    decode? (s.render constant .json) =
      if s.toJson.depth ≤ depthLimit then some s else none := by
  have hend : Spells [] "\n" :=
    Spells.blank (List.forall_mem_singleton.2 (rfl : isSpace '\n' = true))
  have htext := (s.toJson.spells_print .indented 0 s.isPrintable_toJson).append hend
  rw [List.append_nil] at htext
  exact decode?_of_spells h htext

/-- A schema that does not nest too deep is read back from both formats, whatever the constant is
called. -/
theorem decode?_render {s : Schema} (h : SortedMap.Ascending s)
    (hroom : s.toJson.depth ≤ depthLimit) (constant : String) :
    decode? (s.render constant .json) = some s ∧
      ∃ text, s.render constant .define = "const " ++ constant ++ " = " ++ text ++ ";\n" ∧
        decode? text = some s := by
  refine ⟨?_, s.toJson.print .compact 0, rfl, ?_⟩
  · rw [decode?_render_json h, if_pos hroom]
  · rw [decode?_print h, if_pos hroom]

def sample : Schema :=
  [("ui/Page", ⟨"ui/Page", []⟩),
    ("ui\\\"Card\"", ⟨"ui\\\"Card\"", [
      .choice "tab\t" "enum-literal" false [],
      .plain "\x01" "string" true,
      .group "size" "enum" true [
        .group "size" "object" true [],
        .choice "größe" "enum-literal" true ["\n", "é\u2028", "😀"]]]⟩)]

theorem decode?_render_sample :
    SortedMap.Ascending sample ∧ sample.toJson.depth = 7 ∧
      decode? (sample.render "A;\n" .json) = some sample ∧
      ∃ text, sample.render "A;\n" .define = "const " ++ "A;\n" ++ " = " ++ text ++ ";\n" ∧
        decode? text = some sample := by
  have hsample : SortedMap.Ascending sample := by
    rw [SortedMap.Ascending]
    decide
  have hdepth : sample.toJson.depth = 7 := by decide +kernel
  exact ⟨hsample, hdepth, decode?_render hsample (by rw [hdepth]; decide) "A;\n"⟩

end Schema

end PropSchema
