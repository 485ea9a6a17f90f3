import PropSchema.Json.Decoder
import PropSchema.Proofs.Json.Printing

namespace PropSchema.Json

def followed (parts : List (List Token)) : List Token := parts.flatMap (· ++ [.comma])

theorem followed_concat (parts : List (List Token)) (part : List Token) :
    followed (parts ++ [part]) = followed parts ++ part ++ [.comma] := by
  simp [followed]

theorem append_separated_concat (first last : List Token) (parts : List (List Token)) :
    first ++ separated (parts ++ [last]) = followed (first :: parts) ++ last := by
  induction parts generalizing first with
  | nil => simp [separated, followed]
  | cons part parts ih =>
    rw [List.cons_append, separated_cons, ih]
    simp [followed]

theorem enclosed_concat (first last : Token) (parts : List (List Token)) (part : List Token) :
    enclosed first last (parts ++ [part]) = first :: followed parts ++ part ++ [last] := by
  cases parts with
  | nil => simp [enclosed, separated, followed]
  | cons front parts => simp [enclosed, append_separated_concat]

theorem elementTokens_concat (vs : List Value) (v : Value) :
    elementTokens (vs ++ [v]) = elementTokens vs ++ [v.tokens] := by
  induction vs with
  | nil => simp [elementTokens]
  | cons first vs ih => simp [elementTokens, ih]

theorem fieldTokens_concat (fs : List (Content × Value)) (key : Content) (v : Value) :
    fieldTokens (fs ++ [(key, v)]) = fieldTokens fs ++ [.string key :: .colon :: v.tokens] := by
  induction fs with
  | nil => simp [fieldTokens]
  | cons first fs ih => simp [fieldTokens, ih]

def Frame.spent : Frame → List Token
  | .array done => .openBracket :: followed (elementTokens done.reverse)
  | .object done key =>
    .openBrace :: followed (fieldTokens done.reverse) ++ [.string key, .colon]

def Expectation.spent : Expectation → List Token
  | .value => []
  | .elementOrEnd => [.openBracket]
  | .keyOrEnd => [.openBrace]
  | .key done => .openBrace :: followed (fieldTokens done.reverse)
  | .colon done name => .openBrace :: followed (fieldTokens done.reverse) ++ [.string name]
  | .afterValue v => v.tokens

namespace Reader

def stackSpent (stack : List Frame) : List Token := stack.reverse.flatMap Frame.spent

theorem stackSpent_cons (frame : Frame) (stack : List Frame) :
    stackSpent (frame :: stack) = stackSpent stack ++ frame.spent := by
  simp [stackSpent]

def spent (r : Reader) : List Token := stackSpent r.stack ++ r.expects.spent

theorem spent_takeValue {stack : List Frame} {token : Token} {r : Reader}
    (h : takeValue stack token = some r) : r.spent = stackSpent stack ++ [token] := by
  cases token <;> cases h <;> simp [spent, Expectation.spent, Value.tokens]

theorem spent_step {r r' : Reader} {token : Token} (h : r.step token = some r') :
    r'.spent = r.spent ++ [token] := by
  obtain ⟨expects, stack⟩ := r
  cases expects with
  | value => rw [spent_takeValue h, spent, Expectation.spent, List.append_nil]
  | elementOrEnd =>
    by_cases hclose : token = .closeBracket
    · subst hclose
      cases h
      simp [spent, Expectation.spent, Value.tokens, elementTokens, enclosed]
    · have hstep : step ⟨.elementOrEnd, stack⟩ token = takeValue (.array [] :: stack) token := by
        cases token with
        | closeBracket => exact absurd rfl hclose
        | _ => rfl
      rw [spent_takeValue (hstep.symm.trans h), stackSpent_cons]
      rfl
  | keyOrEnd =>
    cases token with
    | closeBrace =>
      cases h
      simp [spent, Expectation.spent, Value.tokens, fieldTokens, enclosed]
    | string key =>
      cases h
      simp [spent, Expectation.spent, fieldTokens, followed]
    | _ => cases h
  | key done =>
    cases token with
    | string key =>
      cases h
      simp [spent, Expectation.spent]
    | _ => cases h
  | colon done key =>
    cases token with
    | colon =>
      cases h
      simp [spent, stackSpent_cons, Expectation.spent, Frame.spent]
    | _ => cases h
  | afterValue v =>
    cases stack with
    | nil => cases token <;> cases h
    | cons frame stack =>
      cases frame with
      | array done =>
        cases token with
        | comma =>
          cases h
          simp [spent, stackSpent_cons, Expectation.spent, Frame.spent, elementTokens_concat,
            followed_concat]
        | closeBracket =>
          cases h
          simp [spent, stackSpent_cons, Expectation.spent, Frame.spent, Value.tokens,
            elementTokens_concat, enclosed_concat]
        | _ => cases h
      | object done key =>
        cases token with
        | comma =>
          cases h
          simp [spent, stackSpent_cons, Expectation.spent, Frame.spent, fieldTokens_concat,
            followed_concat]
        | closeBrace =>
          cases h
          simp [spent, stackSpent_cons, Expectation.spent, Frame.spent, Value.tokens,
            fieldTokens_concat, enclosed_concat]
        | _ => cases h

theorem spent_foldlM {tokens : List Token} {r r' : Reader} (h : tokens.foldlM step r = some r') :
    r'.spent = r.spent ++ tokens := by
  induction tokens generalizing r with
  | nil =>
    cases h
    exact (List.append_nil _).symm
  | cons token tokens ih =>
    rw [List.foldlM_cons] at h
    obtain ⟨next, hstep, hrest⟩ := Option.bind_eq_some_iff.1 h
    rw [ih hrest, spent_step hstep, List.append_assoc, List.singleton_append]

end Reader

theorem tokens_of_ofTokens? {tokens : List Token} {v : Value} (h : ofTokens? tokens = some v) :
    tokens = v.tokens := by
  obtain ⟨r, hr, hfinish⟩ := Option.bind_eq_some_iff.1 h
  have hspent := Reader.spent_foldlM hr
  unfold Reader.finish? at hfinish
  split at hfinish
  next =>
    cases hfinish
    exact hspent.symm
  next => cases hfinish

theorem parse?_eq_some_iff {text : String} {v : Value} :
    parse? text = some v ↔ Spells v.tokens text := by
  refine ⟨fun h => ?_, Spells.parse?_eq⟩
  obtain ⟨tokens, htokens, hv⟩ := Option.bind_eq_some_iff.1 h
  obtain ⟨ls, hls, hspelled⟩ := exists_spelled htokens
  exact ⟨ls, hls.trans (tokens_of_ofTokens? hv), hspelled⟩

section Lists

variable {α β : Type} {f : α → Option β} {l : List α} {result : List β}

theorem eq_map_of_mapM {write : β → α} (h : ∀ a b, f a = some b → a = write b)
    (hresult : l.mapM f = some result) : l = result.map write := by
  induction l generalizing result with
  | nil =>
    cases hresult
    rfl
  | cons a l ih =>
    rw [List.mapM_cons] at hresult
    obtain ⟨b, hb, hrest⟩ := Option.bind_eq_some_iff.1 hresult
    obtain ⟨rest, hl, hcons⟩ := Option.bind_eq_some_iff.1 hrest
    cases hcons
    rw [h a b hb, ih hl, List.map_cons]

theorem exists_getElem?_of_mapM {a : α} {i : Nat} (hresult : l.mapM f = some result)
    (ha : l[i]? = some a) : ∃ b, f a = some b ∧ result[i]? = some b := by
  induction l generalizing result i with
  | nil => cases ha
  | cons first l ih =>
    rw [List.mapM_cons] at hresult
    obtain ⟨b, hb, hrest⟩ := Option.bind_eq_some_iff.1 hresult
    obtain ⟨rest, hl, hcons⟩ := Option.bind_eq_some_iff.1 hrest
    cases hcons
    cases i with
    | zero =>
      cases ha
      exact ⟨b, hb, rfl⟩
    | succ i =>
      rw [List.getElem?_cons_succ] at ha ⊢
      exact ih hl ha

end Lists

def Value.field? (name : String) (place : Nat) : Value → Option Value
  | .object fields => fields.lookup (some name)
  | .array elements => elements[place]?
  | _ => none

def FieldValue.value? : FieldValue → Option Value
  | .present v => some v
  | _ => none

theorem lookup_eq_filter (fields : List (String × Value)) (name : String) :
    fields.lookup name = (fields.filter (·.1 == name)).head?.map (·.2) := by
  induction fields with
  | nil => rfl
  | cons f fields ih =>
    obtain ⟨key, v⟩ := f
    rw [SortedMap.lookup_cons, ih, List.filter_cons]
    by_cases hname : name = key
    · simp [hname]
    · simp [hname, Ne.symm hname]

theorem value?_of_objectField? {fields : List (String × Value)} {name : String} {field : FieldValue}
    (h : objectField? fields name = some field) : field.value? = fields.lookup name := by
  rw [lookup_eq_filter]
  unfold objectField? at h
  split at h
  next hnil =>
    cases h
    rw [hnil]
    rfl
  next hone =>
    cases h
    rw [hone]
    rfl
  next => cases h

theorem lookup_map_some (fields : List (String × Value)) (name : String) :
    (fields.map fun f => ((some f.1 : Content), f.2)).lookup (some name) = fields.lookup name := by
  induction fields with
  | nil => rfl
  | cons f fields ih =>
    rw [List.map_cons, List.lookup_cons, List.lookup_cons, ih]
    rfl

theorem value?_of_recordFields? {names : List String} {v : Value} {fields : List FieldValue}
    (h : recordFields? names v = some fields) {name : String} {place : Nat}
    (hname : names[place]? = some name) :
    fields[place]?.bind FieldValue.value? = v.field? name place := by
  cases v with
  | object written =>
    obtain ⟨known, hknown, hfields⟩ := Option.bind_eq_some_iff.1 h
    have hwritten : written = known.map fun f => (some f.1, f.2) := by
      refine eq_map_of_mapM (fun f b hf => ?_) hknown
      obtain ⟨key, hkey, rfl⟩ := Option.map_eq_some_iff.1 hf
      exact Prod.ext hkey rfl
    obtain ⟨field, hfield, hplace⟩ := exists_getElem?_of_mapM hfields hname
    rw [Value.field?, hwritten, lookup_map_some, hplace]
    exact value?_of_objectField? hfield
  | array elements =>
    rw [recordFields?] at h
    split at h
    · cases h
      rw [Value.field?]
      by_cases hplace : place < elements.length
      · rw [List.getElem?_append_left (by simpa using hplace), List.getElem?_map,
          List.getElem?_eq_getElem hplace]
        rfl
      · rw [List.getElem?_append_right (by simpa using hplace), List.getElem?_replicate,
          List.getElem?_eq_none (Nat.not_lt.1 hplace)]
        split <;> rfl
    · cases h
  | _ => cases h

end PropSchema.Json
