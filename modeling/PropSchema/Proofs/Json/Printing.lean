import Mathlib.Data.List.Forall2
import PropSchema.Json.Printer
import PropSchema.Proofs.Json.Lexeme

namespace PropSchema.Json

def separated (parts : List (List Token)) : List Token := parts.flatMap (.comma :: ·)

theorem separated_cons (part : List Token) (parts : List (List Token)) :
    separated (part :: parts) = .comma :: (part ++ separated parts) := rfl

def enclosed (first last : Token) : List (List Token) → List Token
  | [] => [first, last]
  | part :: parts => first :: (part ++ separated parts ++ [last])

mutual

def Value.tokens : Value → List Token
  | .null => [.null]
  | .bool b => [.bool b]
  | .number text => [.number text]
  | .string content => [.string content]
  | .array elements => enclosed .openBracket .closeBracket (elementTokens elements)
  | .object fields => enclosed .openBrace .closeBrace (fieldTokens fields)

def elementTokens : List Value → List (List Token)
  | [] => []
  | v :: rest => v.tokens :: elementTokens rest

def fieldTokens : List (Content × Value) → List (List Token)
  | [] => []
  | (key, v) :: rest => (.string key :: .colon :: v.tokens) :: fieldTokens rest

end

namespace Reader

def run (r : Reader) (tokens : List Token) : Option Reader := tokens.foldlM step r

theorem run_of_step {r r' : Reader} {token : Token} (h : r.step token = some r')
    (tokens : List Token) : r.run (token :: tokens) = r'.run tokens := by
  rw [run, List.foldlM_cons, h]
  rfl

theorem run_elementOrEnd (v : Value) (stack : List Frame) (rest : List Token) :
    run ⟨.elementOrEnd, stack⟩ (v.tokens ++ rest) =
      run ⟨.value, .array [] :: stack⟩ (v.tokens ++ rest) := by
  cases v with
  | array vs => cases vs <;> simp only [Value.tokens, elementTokens, enclosed] <;> rfl
  | object fs => cases fs <;> simp only [Value.tokens, fieldTokens, enclosed] <;> rfl
  | _ => rw [Value.tokens]; rfl

mutual

theorem run_tokens : ∀ (v : Value) (stack : List Frame) (rest : List Token),
    run ⟨.value, stack⟩ (v.tokens ++ rest) = run ⟨.afterValue v, stack⟩ rest
  | .null, _, _ => by rw [Value.tokens]; rfl
  | .bool _, _, _ => by rw [Value.tokens]; rfl
  | .number _, _, _ => by rw [Value.tokens]; rfl
  | .string _, _, _ => by rw [Value.tokens]; rfl
  | .array [], _, _ => by rw [Value.tokens, elementTokens]; rfl
  | .array (v :: vs), stack, rest => by
    rw [Value.tokens, elementTokens, enclosed, List.cons_append, List.append_assoc,
      List.append_assoc, run_of_step rfl, run_elementOrEnd, run_tokens v]
    exact run_elements vs v [] stack rest
  | .object [], _, _ => by rw [Value.tokens, fieldTokens]; rfl
  | .object ((key, v) :: fs), stack, rest => by
    rw [Value.tokens, fieldTokens, enclosed, List.cons_append, List.append_assoc,
      List.append_assoc, run_of_step rfl, List.cons_append, run_of_step rfl, List.cons_append,
      run_of_step rfl, run_tokens v]
    exact run_fields fs key v [] stack rest

theorem run_elements : ∀ (vs : List Value) (v : Value) (done : List Value) (stack : List Frame)
    (rest : List Token),
    run ⟨.afterValue v, .array done :: stack⟩
        (separated (elementTokens vs) ++ ([.closeBracket] ++ rest)) =
      run ⟨.afterValue (.array (done.reverse ++ v :: vs)), stack⟩ rest
  | [], v, done, stack, rest => by
    rw [elementTokens, ← List.reverse_cons]
    exact run_of_step rfl rest
  | w :: vs, v, done, stack, rest => by
    rw [elementTokens, separated_cons, List.cons_append, run_of_step rfl, List.append_assoc,
      run_tokens w]
    have hrun := run_elements vs w (v :: done) stack rest
    rwa [List.reverse_cons, List.append_assoc] at hrun

theorem run_fields : ∀ (fs : List (Content × Value)) (key : Content) (v : Value)
    (done : List (Content × Value)) (stack : List Frame) (rest : List Token),
    run ⟨.afterValue v, .object done key :: stack⟩
        (separated (fieldTokens fs) ++ ([.closeBrace] ++ rest)) =
      run ⟨.afterValue (.object (done.reverse ++ (key, v) :: fs)), stack⟩ rest
  | [], key, v, done, stack, rest => by
    rw [fieldTokens, ← List.reverse_cons]
    exact run_of_step rfl rest
  | (key', w) :: fs, key, v, done, stack, rest => by
    rw [fieldTokens, separated_cons, List.cons_append, run_of_step rfl, List.append_assoc,
      List.cons_append, run_of_step rfl, List.cons_append, run_of_step rfl, run_tokens w]
    have hrun := run_fields fs key' w ((key, v) :: done) stack rest
    rwa [List.reverse_cons, List.append_assoc] at hrun

end

end Reader

theorem ofTokens?_tokens (v : Value) : ofTokens? v.tokens = some v := by
  have hrun := Reader.run_tokens v [] []
  rw [List.append_nil] at hrun
  rw [ofTokens?, Reader.start]
  exact congrArg (· >>= Reader.finish?) hrun

section Strings

theorem hexValue?_hexDigit : ∀ n < 16, hexValue? (hexDigit n) = some n := by decide

theorem contentOf_unit {n : Nat} (h : n < 0xD800) (rest : List Piece) :
    contentOf (.unit n :: rest) = (contentOf rest).map (Char.ofNat n :: ·) := by
  have hhigh : isHighSurrogate n = false := by simp [isHighSurrogate]; omega
  have hlow : isLowSurrogate n = false := by simp [isLowSurrogate]; omega
  cases rest with
  | nil => simp [contentOf, hhigh, hlow]
  | cons piece rest => cases piece <;> simp [contentOf, hhigh, hlow]

theorem scanString_escape {e c : Char} (h : escape? e = some c) (rest : List Char) :
    scanString ('\\' :: e :: rest) =
      (scanString rest).map fun (pieces, after) => (.char c :: pieces, after) := by
  have hne : e ≠ 'u' := by
    rintro rfl
    cases h
  rw [scanString, h]
  · cases scanString rest <;> rfl
  · exact fun _ _ _ _ _ heq => absurd heq hne

theorem scanString_unit {a b c d : Char} {n : Nat} (h : hex4? a b c d = some n) (rest : List Char) :
    scanString ('\\' :: 'u' :: a :: b :: c :: d :: rest) =
      (scanString rest).map fun (pieces, after) => (.unit n :: pieces, after) := by
  rw [scanString, h]
  cases scanString rest <;> rfl

theorem exists_piece (c : Char) : ∃ piece : Piece,
    (∀ rest, contentOf (piece :: rest) = (contentOf rest).map (c :: ·)) ∧
      ∀ rest, scanString (escapeChar c ++ rest) =
        (scanString rest).map fun (pieces, after) => (piece :: pieces, after) := by
  unfold escapeChar
  split
  case h_8 hquote hslash _ _ _ _ _ =>
    split
    next hlow =>
      have hhex : hex4? '0' '0' (hexDigit (c.toNat / 16)) (hexDigit (c.toNat % 16)) =
          some c.toNat := by
        have hzero : hexValue? '0' = some 0 := rfl
        simp only [hex4?, hzero, hexValue?_hexDigit (c.toNat / 16) (by omega),
          hexValue?_hexDigit (c.toNat % 16) (by omega), Option.bind_eq_bind, Option.bind_some]
        exact congrArg some (by omega)
      refine ⟨.unit c.toNat, fun rest => ?_, scanString_unit hhex⟩
      rw [contentOf_unit (by omega), Char.ofNat_toNat]
    next hhigh => exact ⟨.char c, fun _ => rfl, scanString_char hquote hslash (Nat.not_lt.1 hhigh)⟩
  all_goals exact ⟨.char _, fun _ => rfl, scanString_escape rfl⟩

theorem exists_pieces (chars rest : List Char) : ∃ pieces, contentOf pieces = some chars ∧
    scanString (chars.flatMap escapeChar ++ '"' :: rest) = some (pieces, rest) := by
  induction chars with
  | nil => exact ⟨[], rfl, rfl⟩
  | cons c chars ih =>
    obtain ⟨pieces, hcontent, hscan⟩ := ih
    obtain ⟨piece, hpiece, hchar⟩ := exists_piece c
    refine ⟨piece :: pieces, by rw [hpiece, hcontent, Option.map_some], ?_⟩
    rw [List.flatMap_cons, List.append_assoc, hchar, hscan, Option.map_some]

theorem scan?_quote (s : String) : scan? (quote s).toList = some (.string (some s), []) := by
  obtain ⟨pieces, hcontent, hscan⟩ := exists_pieces s.toList []
  simp only [quote, String.toList_ofList, scan?, hscan, hcontent, Option.map_some,
    String.ofList_toList]

end Strings

def Spells (tokens : List Token) (text : String) : Prop :=
  ∃ ls : List Lexeme, ls.map (·.token) = tokens ∧ Spelled Blank ls text.toList

namespace Spells

variable {tokens tokens' : List Token} {text text' : String}

theorem append (h : Spells tokens text) (h' : Spells tokens' text') :
    Spells (tokens ++ tokens') (text ++ text') := by
  obtain ⟨ls, rfl, hspelled⟩ := h
  obtain ⟨ls', rfl, hspelled'⟩ := h'
  refine ⟨ls ++ ls', List.map_append, ?_⟩
  rw [String.toList_append]
  exact hspelled.append hspelled'

theorem lexeme {token : Token} (h : scan? text.toList = some (token, [])) :
    Spells [token] text := by
  refine ⟨[⟨text.toList, token, h⟩], rfl, ?_⟩
  have hspelled := Spelled.lexeme (⟨text.toList, token, h⟩ : Lexeme) (@Spelled.nil Blank)
  rwa [List.append_nil] at hspelled

theorem blank {chars : List Char} (h : ∀ c ∈ chars, isSpace c = true) :
    Spells [] (String.ofList chars) := by
  refine ⟨[], rfl, ?_⟩
  rw [String.toList_ofList]
  induction chars with
  | nil => exact .nil
  | cons c chars ih =>
    obtain ⟨hc, h⟩ := List.forall_mem_cons.1 h
    exact .fill ⟨c, hc, rfl⟩ (ih h)

theorem parse?_eq {v : Value} (h : Spells v.tokens text) : parse? text = some v := by
  obtain ⟨ls, htokens, hspelled⟩ := h
  have hread := ofTokens?_tokens v
  have hchain := isChain_of_ofTokens? hread
  rw [← htokens] at hread hchain
  rw [parse?, tokens?_of_spelled hspelled hchain]
  exact hread

end Spells

theorem spells_newline (l : Layout) (level : Nat) : Spells [] (l.newline level) := by
  cases l with
  | compact => exact ⟨[], rfl, .nil⟩
  | indented =>
    refine Spells.blank fun c hc => ?_
    obtain rfl | hc := List.mem_cons.1 hc
    · rfl
    · rw [(List.mem_replicate.1 hc).2]
      rfl

theorem spells_colon (l : Layout) : Spells [.colon] l.colon := by
  have hcolon : Spells [.colon] ":" := .lexeme rfl
  have hspace : Spells [] " " :=
    Spells.blank (List.forall_mem_singleton.2 (rfl : isSpace ' ' = true))
  cases l with
  | compact => exact hcolon
  | indented => exact hcolon.append hspace

theorem spells_intercalate {separator : String} (hseparator : Spells [.comma] separator)
    {tokens : List Token} {part : String} (hpart : Spells tokens part) {rest : List (List Token)}
    {parts : List String} (h : List.Forall₂ Spells rest parts) :
    Spells (tokens ++ separated rest) (separator.intercalate (part :: parts)) := by
  induction h generalizing tokens part with
  | nil =>
    rw [String.intercalate_singleton, separated, List.flatMap_nil, List.append_nil]
    exact hpart
  | cons hnext _ ih =>
    rw [String.intercalate_cons_cons, String.append_assoc, separated_cons]
    exact hpart.append (hseparator.append (ih hnext))

theorem spells_enclose (l : Layout) (level : Nat) {first last : String} {opening closing : Token}
    (hfirst : Spells [opening] first) (hlast : Spells [closing] last) {tokens : List (List Token)}
    {parts : List String} (h : List.Forall₂ Spells tokens parts) :
    Spells (enclosed opening closing tokens) (l.enclose level first last parts) := by
  cases h with
  | nil => exact hfirst.append hlast
  | cons hpart hparts =>
    have hcomma : Spells [.comma] "," := .lexeme rfl
    have hinner := spells_intercalate (hcomma.append (spells_newline l (level + 1))) hpart hparts
    have hlead := (hfirst.append (spells_newline l (level + 1))).append hinner
    have hall := (hlead.append (spells_newline l level)).append hlast
    rw [List.append_nil, List.append_nil] at hall
    exact hall

mutual

def Value.IsPrintable : Value → Prop
  | .null | .bool _ => True
  | .number text => scan? text.toList = some (.number text, [])
  | .string content => content.isSome
  | .array elements => ArePrintable elements
  | .object fields => FieldsPrintable fields

def ArePrintable : List Value → Prop
  | [] => True
  | v :: rest => v.IsPrintable ∧ ArePrintable rest

def FieldsPrintable : List (Content × Value) → Prop
  | [] => True
  | (key, v) :: rest => key.isSome ∧ v.IsPrintable ∧ FieldsPrintable rest

end

theorem spells_content {content : Content} (h : content.isSome) :
    Spells [.string content] (contentText content) := by
  obtain ⟨s, rfl⟩ := Option.isSome_iff_exists.1 h
  exact .lexeme (scan?_quote s)

mutual

theorem Value.spells_print (l : Layout) : ∀ (v : Value) (level : Nat), v.IsPrintable →
    Spells v.tokens (v.print l level)
  | .null, _, _ => by rw [Value.tokens, Value.print]; exact .lexeme rfl
  | .bool b, _, _ => by rw [Value.tokens, Value.print]; cases b <;> exact .lexeme rfl
  | .number text, _, h => by
    rw [Value.IsPrintable] at h
    rw [Value.tokens, Value.print]
    exact .lexeme h
  | .string content, _, h => by
    rw [Value.IsPrintable] at h
    rw [Value.tokens, Value.print]
    exact spells_content h
  | .array elements, level, h => by
    rw [Value.IsPrintable] at h
    rw [Value.tokens, Value.print]
    exact spells_enclose l level (.lexeme rfl) (.lexeme rfl) (spells_printElements l elements _ h)
  | .object fields, level, h => by
    rw [Value.IsPrintable] at h
    rw [Value.tokens, Value.print]
    exact spells_enclose l level (.lexeme rfl) (.lexeme rfl) (spells_printFields l fields _ h)

theorem spells_printElements (l : Layout) : ∀ (vs : List Value) (level : Nat), ArePrintable vs →
    List.Forall₂ Spells (elementTokens vs) (printElements l level vs)
  | [], _, _ => by rw [elementTokens, printElements]; exact .nil
  | v :: vs, level, h => by
    rw [ArePrintable] at h
    rw [elementTokens, printElements]
    exact .cons (v.spells_print l level h.1) (spells_printElements l vs level h.2)

theorem spells_printFields (l : Layout) : ∀ (fs : List (Content × Value)) (level : Nat),
    FieldsPrintable fs → List.Forall₂ Spells (fieldTokens fs) (printFields l level fs)
  | [], _, _ => by rw [fieldTokens, printFields]; exact .nil
  | (key, v) :: fs, level, h => by
    rw [FieldsPrintable] at h
    rw [fieldTokens, printFields]
    have hkey := (spells_content h.1).append (spells_colon l)
    have hfield := hkey.append (v.spells_print l level h.2.1)
    exact .cons hfield (spells_printFields l fs level h.2.2)

end

end PropSchema.Json
