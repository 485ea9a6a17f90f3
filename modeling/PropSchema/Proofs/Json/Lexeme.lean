import Mathlib.Data.List.Chain
import PropSchema.Json.Value
import PropSchema.Text.Blank

/-!
How tokens are spelled. A lexeme is a text that is read as one token; a text is read as the tokens
of its lexemes, with blanks between them, as long as no number runs into the next lexeme. In the
tokens of a JSON value it never does.
-/

namespace PropSchema.Json

def Avoids (p : Char → Bool) (chars : List Char) : Prop := ∀ c ∈ chars.head?, p c = false

section Avoids

variable {p q : Char → Bool} {chars rest : List Char}

theorem avoids_nil (p : Char → Bool) : Avoids p [] := fun _ h => nomatch h

theorem avoids_cons {c : Char} : Avoids p (c :: rest) ↔ p c = false := by
  simp [Avoids]

theorem Avoids.append (h : Avoids p chars) (hrest : Avoids p rest) : Avoids p (chars ++ rest) := by
  cases chars with
  | nil => exact hrest
  | cons c chars => exact avoids_cons.2 (avoids_cons.1 h)

theorem Avoids.mono (h : Avoids q chars) (hpq : ∀ c, p c = true → q c = true) : Avoids p chars := by
  intro c hc
  have hq := h c hc
  cases hp : p c with
  | false => rfl
  | true => rw [hpq c hp] at hq; exact hq

end Avoids

def isNumeric (c : Char) : Bool :=
  c.isDigit || c == '.' || c == 'e' || c == 'E' || c == '+' || c == '-'

/-- A part that a scanner takes off every text that starts with it and does not go on with one of
the characters in `stop`. -/
structure IsPart (scanner : List Char → Option (List Char × List Char)) (stop : Char → Bool)
    (lead : List Char) : Prop where
  scan : ∀ rest, Avoids stop rest → scanner (lead ++ rest) = some (lead, rest)
  numeric : ∀ c ∈ lead, isNumeric c = true

section Numbers

variable {chars lead after : List Char}

theorem isPart_digits? (h : digits? chars = some (lead, after)) :
    chars = lead ++ after ∧ IsPart digits? Char.isDigit lead := by
  unfold digits? at h
  split at h
  next => cases h
  next hne =>
    cases h
    have hdigits : ∀ c ∈ chars.takeWhile Char.isDigit, c.isDigit = true :=
      List.all_eq_true.1 List.all_takeWhile
    refine ⟨List.takeWhile_append_dropWhile.symm, fun rest hrest => ?_, fun c hc => ?_⟩
    · have hstop : rest.takeWhile Char.isDigit = [] ∧ rest.dropWhile Char.isDigit = rest := by
        cases rest with
        | nil => exact ⟨rfl, rfl⟩
        | cons c rest => simp [avoids_cons.1 hrest]
      simp only [digits?, List.takeWhile_append_of_pos hdigits,
        List.dropWhile_append_of_pos hdigits, hstop, List.append_nil]
    · simp [isNumeric, hdigits c hc]

theorem IsPart.ne_nil {scanner : List Char → Option (List Char × List Char)} {stop : Char → Bool}
    (h : IsPart scanner stop lead) (hnil : scanner [] = none) : lead ≠ [] := by
  rintro rfl
  have hscan := h.scan [] (avoids_nil stop)
  rw [List.append_nil, hnil] at hscan
  cases hscan

theorem isPart_scanWhole? (h : scanWhole? chars = some (lead, after)) :
    chars = lead ++ after ∧ IsPart scanWhole? Char.isDigit lead := by
  unfold scanWhole? at h
  split at h
  next rest =>
    cases h
    exact ⟨rfl, fun _ _ => rfl, by simp [isNumeric]⟩
  next hzero =>
    obtain ⟨rfl, hpart⟩ := isPart_digits? h
    refine ⟨rfl, fun rest hrest => ?_, hpart.numeric⟩
    rw [← hpart.scan rest hrest]
    obtain ⟨c, lead, rfl⟩ := List.exists_cons_of_ne_nil (hpart.ne_nil rfl)
    unfold scanWhole?
    split
    next heq =>
      cases heq
      exact absurd rfl (hzero (lead ++ after))
    next => rfl

theorem isPart_scanFraction? (h : scanFraction? chars = some (lead, after)) :
    chars = lead ++ after ∧ Avoids Char.isDigit lead ∧
      IsPart scanFraction? (fun c => c.isDigit || c == '.') lead := by
  unfold scanFraction? at h
  split at h
  next rest =>
    obtain ⟨⟨digits, after⟩, hdigits, heq⟩ := Option.map_eq_some_iff.1 h
    cases heq
    obtain ⟨rfl, hpart⟩ := isPart_digits? hdigits
    refine ⟨rfl, avoids_cons.2 rfl, fun rest hrest => ?_, ?_⟩
    · have hscan := hpart.scan rest (hrest.mono fun c hc => by simp [hc])
      simp only [List.cons_append, scanFraction?, hscan, Option.map_some]
    · simpa [isNumeric] using hpart.numeric
  next hpoint =>
    cases h
    refine ⟨rfl, avoids_nil _, fun rest hrest => ?_, by simp⟩
    rw [List.nil_append]
    unfold scanFraction?
    split
    next => cases avoids_cons.1 hrest
    next => rfl

def splitSign : List Char → List Char × List Char
  | '+' :: rest => (['+'], rest)
  | '-' :: rest => (['-'], rest)
  | chars => ([], chars)

theorem scanExponent?_cons {mark : Char} (hmark : (mark == 'e' || mark == 'E') = true)
    (chars : List Char) : scanExponent? (mark :: chars) =
      (digits? (splitSign chars).2).map fun (digits, after) =>
        (mark :: ((splitSign chars).1 ++ digits), after) := by
  unfold scanExponent?
  simp only [hmark, if_true]
  fun_cases splitSign chars with
  | case1 => rfl
  | case2 => rfl
  | case3 _ hplus hminus =>
    split
    next => exact absurd rfl (hplus _)
    next => exact absurd rfl (hminus _)
    next => rfl

theorem eq_append_of_splitSign (chars : List Char) :
    chars = (splitSign chars).1 ++ (splitSign chars).2 := by
  fun_cases splitSign chars <;> rfl

theorem splitSign_append {digits after : List Char} (hne : digits ≠ [])
    (h : (splitSign chars).2 = digits ++ after) (rest : List Char) :
    splitSign ((splitSign chars).1 ++ (digits ++ rest)) =
      ((splitSign chars).1, digits ++ rest) := by
  obtain ⟨c, digits, rfl⟩ := List.exists_cons_of_ne_nil hne
  revert h
  fun_cases splitSign chars with
  | case1 => intro _; rfl
  | case2 => intro _; rfl
  | case3 _ hplus hminus =>
    intro h
    simp only [List.cons_append] at h
    simp only [List.nil_append, List.cons_append]
    unfold splitSign
    split
    next heq => exact absurd (by rw [h, (List.cons.inj heq).1]) (hplus _)
    next heq => exact absurd (by rw [h, (List.cons.inj heq).1]) (hminus _)
    next => rfl

theorem isPart_scanExponent? (h : scanExponent? chars = some (lead, after)) :
    chars = lead ++ after ∧ Avoids (fun c => c.isDigit || c == '.') lead ∧
      IsPart scanExponent? (fun c => c.isDigit || c == 'e' || c == 'E') lead := by
  have hempty : IsPart scanExponent? (fun c => c.isDigit || c == 'e' || c == 'E') [] := by
    refine ⟨fun rest hrest => ?_, nofun⟩
    cases rest with
    | nil => rfl
    | cons c rest =>
      have hc := avoids_cons.1 hrest
      simp only [Bool.or_eq_false_iff] at hc
      simp [scanExponent?, hc]
  cases chars with
  | nil =>
    cases h
    exact ⟨rfl, avoids_nil _, hempty⟩
  | cons mark rest =>
    cases hmark : mark == 'e' || mark == 'E' with
    | false =>
      simp only [scanExponent?, hmark, Bool.false_eq_true, if_false] at h
      cases h
      exact ⟨rfl, avoids_nil _, hempty⟩
    | true =>
      rw [scanExponent?_cons hmark] at h
      obtain ⟨⟨digits, after⟩, hdigits, heq⟩ := Option.map_eq_some_iff.1 h
      cases heq
      obtain ⟨hsplit, hpart⟩ := isPart_digits? hdigits
      have hletter : mark = 'e' ∨ mark = 'E' := by simpa using hmark
      refine ⟨?_, avoids_cons.2 ?_, fun more hmore => ?_, ?_⟩
      · rw [List.cons_append, List.append_assoc, ← hsplit, ← eq_append_of_splitSign]
      · rcases hletter with rfl | rfl <;> rfl
      · rw [List.cons_append, List.append_assoc, scanExponent?_cons hmark,
          splitSign_append (hpart.ne_nil rfl) hsplit,
          hpart.scan more (hmore.mono fun c hc => by simp [hc]), Option.map_some]
      · have hsign : ∀ c ∈ (splitSign rest).1, isNumeric c = true := by
          fun_cases splitSign rest <;> simp [isNumeric]
        intro c hc
        rcases List.mem_cons.1 hc with rfl | hc
        · rcases hletter with rfl | rfl <;> rfl
        · rcases List.mem_append.1 hc with hc | hc
          · exact hsign c hc
          · exact hpart.numeric c hc

def scanUnsigned? (chars : List Char) : Option (List Char × List Char) := do
  let (whole, rest) ← scanWhole? chars
  let (fraction, rest) ← scanFraction? rest
  let (exponent, rest) ← scanExponent? rest
  return (whole ++ fraction ++ exponent, rest)

theorem scanNumber?_minus (chars : List Char) :
    scanNumber? ('-' :: chars) = (scanUnsigned? chars).map fun (lead, after) =>
      ('-' :: lead, after) := by
  simp only [scanNumber?, scanUnsigned?, Option.bind_eq_bind, Option.map_bind, Function.comp_def]
  rfl

theorem scanNumber?_of_ne (h : ∀ unsigned, chars ≠ '-' :: unsigned) :
    scanNumber? chars = scanUnsigned? chars := by
  unfold scanNumber?
  split
  next heq =>
    split at heq
    next => exact absurd rfl (h _)
    next =>
      cases heq
      rfl

theorem isPart_scanUnsigned? (h : scanUnsigned? chars = some (lead, after)) :
    chars = lead ++ after ∧ IsPart scanUnsigned? isNumeric lead := by
  simp only [scanUnsigned?, Option.bind_eq_bind, Option.bind_eq_some_iff] at h
  obtain ⟨⟨whole, afterWhole⟩, hw, ⟨fraction, afterFraction⟩, hf, ⟨exponent, _⟩, he, heq⟩ := h
  cases heq
  obtain ⟨rfl, hwhole⟩ := isPart_scanWhole? hw
  obtain ⟨rfl, hfree, hfraction⟩ := isPart_scanFraction? hf
  obtain ⟨rfl, hfree', hexponent⟩ := isPart_scanExponent? he
  refine ⟨by simp only [List.append_assoc], fun rest hrest => ?_, ?_⟩
  · -- What follows each part does not prolong it.
    have hrest' : Avoids (fun c => c.isDigit || c == '.') (exponent ++ rest) :=
      hfree'.append (hrest.mono fun c hc => by
        simp only [Bool.or_eq_true] at hc
        rcases hc with hc | hc <;> simp [isNumeric, hc])
    have hrest'' : Avoids Char.isDigit (fraction ++ (exponent ++ rest)) :=
      hfree.append (hrest'.mono fun c hc => by simp [hc])
    have hend : Avoids (fun c => c.isDigit || c == 'e' || c == 'E') rest :=
      hrest.mono fun c hc => by
        simp only [Bool.or_eq_true] at hc
        rcases hc with (hc | hc) | hc <;> simp [isNumeric, hc]
    rw [List.append_assoc, List.append_assoc]
    simp only [scanUnsigned?, hwhole.scan _ hrest'', hfraction.scan _ hrest', hexponent.scan _ hend,
      Option.bind_eq_bind, Option.bind_some, List.append_assoc]
    rfl
  · intro c hc
    rcases List.mem_append.1 hc with hc | hc
    · rcases List.mem_append.1 hc with hc | hc
      · exact hwhole.numeric c hc
      · exact hfraction.numeric c hc
    · exact hexponent.numeric c hc

theorem isPart_scanNumber? (h : scanNumber? chars = some (lead, after)) :
    chars = lead ++ after ∧ IsPart scanNumber? isNumeric lead := by
  by_cases hminus : ∃ unsigned, chars = '-' :: unsigned
  · obtain ⟨unsigned, rfl⟩ := hminus
    rw [scanNumber?_minus] at h
    obtain ⟨⟨digits, after⟩, hscan, heq⟩ := Option.map_eq_some_iff.1 h
    cases heq
    obtain ⟨rfl, hpart⟩ := isPart_scanUnsigned? hscan
    refine ⟨rfl, fun rest hrest => ?_, ?_⟩
    · rw [List.cons_append, scanNumber?_minus, hpart.scan rest hrest, Option.map_some]
    · simpa [isNumeric] using hpart.numeric
  · have hne : ∀ unsigned, chars ≠ '-' :: unsigned := fun unsigned heq => hminus ⟨unsigned, heq⟩
    rw [scanNumber?_of_ne hne] at h
    obtain ⟨rfl, hpart⟩ := isPart_scanUnsigned? h
    obtain ⟨c, digits, rfl⟩ := List.exists_cons_of_ne_nil (hpart.ne_nil rfl)
    refine ⟨rfl, fun rest hrest => ?_, hpart.numeric⟩
    rw [scanNumber?_of_ne, hpart.scan rest hrest]
    intro unsigned heq
    exact hne (digits ++ after) (by rw [List.cons_append, (List.cons.inj heq).1])

end Numbers

inductive Quoted : List Char → Prop
  | close : Quoted ['"']
  | escape {c rest} : Quoted rest → Quoted ('\\' :: c :: rest)
  | char {c rest} : c ≠ '"' → c ≠ '\\' → Quoted rest → Quoted (c :: rest)

theorem scanString_char {c : Char} (hquote : c ≠ '"') (hslash : c ≠ '\\') (hspace : 0x20 ≤ c.toNat)
    (rest : List Char) : scanString (c :: rest) =
      (scanString rest).map fun (pieces, after) => (.char c :: pieces, after) := by
  rw [scanString.eq_def]
  split
  next heq => cases heq
  next heq => exact absurd (List.cons.inj heq).1 hquote
  next heq => exact absurd (List.cons.inj heq).1 hslash
  next heq => exact absurd (List.cons.inj heq).1 hslash
  next heq =>
    cases heq
    rw [if_neg]
    simp [hslash, hspace]

theorem ne_of_hexValue? {c : Char} {n : Nat} (h : hexValue? c = some n) : c ≠ '"' ∧ c ≠ '\\' := by
  constructor <;> rintro rfl <;> cases h

theorem quoted_of_scanString {chars : List Char} : ∀ {pieces : List Piece} {after : List Char},
    scanString chars = some (pieces, after) → ∃ lead, chars = lead ++ after ∧ Quoted lead ∧
      ∀ rest, scanString (lead ++ rest) = some (pieces, rest) := by
  fun_induction scanString chars with
  | case1 =>
    intro pieces after h
    cases h
  | case2 rest =>
    intro pieces after h
    cases h
    exact ⟨['"'], rfl, .close, fun rest => rfl⟩
  | case3 a b c d rest ih =>
    intro pieces after h
    simp only [Option.bind_eq_bind, Option.bind_eq_some_iff] at h
    obtain ⟨n, hn, ⟨pieces, after⟩, hs, heq⟩ := h
    cases heq
    obtain ⟨lead, rfl, hquoted, hscan⟩ := ih hs
    refine ⟨'\\' :: 'u' :: a :: b :: c :: d :: lead, rfl, ?_, fun rest => ?_⟩
    · simp only [hex4?, Option.bind_eq_bind, Option.bind_eq_some_iff] at hn
      obtain ⟨_, ha, _, hb, _, hc, _, hd, -⟩ := hn
      obtain ⟨ha, ha'⟩ := ne_of_hexValue? ha
      obtain ⟨hb, hb'⟩ := ne_of_hexValue? hb
      obtain ⟨hc, hc'⟩ := ne_of_hexValue? hc
      obtain ⟨hd, hd'⟩ := ne_of_hexValue? hd
      exact .escape (.char ha ha' (.char hb hb' (.char hc hc' (.char hd hd' hquoted))))
    · simp [scanString, hn, hscan]
  | case4 e rest hu ih =>
    intro pieces after h
    simp only [Option.bind_eq_bind, Option.bind_eq_some_iff] at h
    obtain ⟨c, hc, ⟨pieces, after⟩, hs, heq⟩ := h
    cases heq
    obtain ⟨lead, rfl, hquoted, hscan⟩ := ih hs
    refine ⟨'\\' :: e :: lead, rfl, .escape hquoted, fun rest => ?_⟩
    have hne : e ≠ 'u' := by
      rintro rfl
      cases hc
    simp [scanString, hne, hc, hscan]
  | case5 =>
    intro pieces after h
    cases h
  | case6 c rest hquote _ _ hplain ih =>
    intro pieces after h
    obtain ⟨⟨pieces, after⟩, hs, heq⟩ := Option.map_eq_some_iff.1 h
    cases heq
    obtain ⟨lead, rfl, hquoted, hscan⟩ := ih hs
    have hsafe : c ≠ '\\' ∧ 0x20 ≤ c.toNat := by simpa using hplain
    refine ⟨c :: lead, rfl, .char hquote hsafe.1 hquoted, fun rest => ?_⟩
    rw [List.cons_append, scanString_char hquote hsafe.1 hsafe.2, hscan, Option.map_some]

def Token.mark? : Token → Option Char
  | .openBrace => some '\x7b'
  | .closeBrace => some '\x7d'
  | .openBracket => some '['
  | .closeBracket => some ']'
  | .comma => some ','
  | .colon => some ':'
  | _ => none

def Token.word? : Token → Option (List Char)
  | .null => some ['n', 'u', 'l', 'l']
  | .bool true => some ['t', 'r', 'u', 'e']
  | .bool false => some ['f', 'a', 'l', 's', 'e']
  | _ => none

def Token.isNumber : Token → Bool
  | .number _ => true
  | _ => false

inductive Spelling : Token → List Char → Prop
  | mark {token c} : token.mark? = some c → Spelling token [c]
  | word {token chars} : token.word? = some chars → Spelling token chars
  | number {chars} : IsPart scanNumber? isNumeric chars →
    Spelling (.number (String.ofList chars)) chars
  | string {body pieces} : Quoted body → (∀ rest, scanString (body ++ rest) = some (pieces, rest)) →
    Spelling (.string ((contentOf pieces).map String.ofList)) ('"' :: body)

theorem spelling_of_scan? {chars after : List Char} {token : Token}
    (h : scan? chars = some (token, after)) :
    ∃ lead, chars = lead ++ after ∧ Spelling token lead := by
  unfold scan? at h
  split at h
  case h_10 =>
    obtain ⟨⟨pieces, after⟩, hs, heq⟩ := Option.map_eq_some_iff.1 h
    cases heq
    obtain ⟨lead, rfl, hquoted, hscan⟩ := quoted_of_scanString hs
    exact ⟨'"' :: lead, rfl, .string hquoted hscan⟩
  case h_11 =>
    obtain ⟨⟨lead, after⟩, hs, heq⟩ := Option.map_eq_some_iff.1 h
    cases heq
    obtain ⟨rfl, hpart⟩ := isPart_scanNumber? hs
    exact ⟨lead, rfl, .number hpart⟩
  case h_7 | h_8 | h_9 =>
    cases h
    exact ⟨_, rfl, .word rfl⟩
  all_goals
    cases h
    exact ⟨_, rfl, .mark rfl⟩

theorem scan?_of_scanNumber? {chars lead after : List Char}
    (h : scanNumber? chars = some (lead, after)) :
    scan? chars = some (.number (String.ofList lead), after) := by
  unfold scan?
  split
  case h_11 => rw [h, Option.map_some]
  all_goals cases h

theorem Spelling.scan? {token : Token} {lead rest : List Char} (h : Spelling token lead)
    (hrest : token.isNumber = true → Avoids isNumeric rest) :
    scan? (lead ++ rest) = some (token, rest) := by
  cases h with
  | mark hmark => cases token <;> cases hmark <;> rfl
  | word hword =>
    cases token with
    | null => cases hword; rfl
    | bool b => cases b <;> cases hword <;> rfl
    | _ => cases hword
  | number hpart => exact scan?_of_scanNumber? (hpart.scan rest (hrest rfl))
  | string hquoted hscan => simp only [List.cons_append, Json.scan?, hscan, Option.map_some]

def Token.closes : Token → Bool
  | .closeBrace | .closeBracket => true
  | _ => false

theorem isBlank_of_isNumeric {c : Char} (h : isNumeric c = true) : Text.isBlank c = false := by
  simp only [isNumeric, Bool.or_eq_true, beq_iff_eq] at h
  rcases h with ((((h | rfl) | rfl) | rfl) | rfl) | rfl
  · obtain ⟨hlow, hhigh⟩ : 48 ≤ c.toNat ∧ c.toNat ≤ 57 := by
      simpa [Char.isDigit, UInt32.le_iff_toNat_le] using h
    simp only [Text.isBlank, Bool.or_eq_false_iff, Bool.and_eq_false_iff, beq_eq_false_iff_ne,
      decide_eq_false_iff_not]
    omega
  all_goals rfl

theorem Spelling.head {token : Token} {lead : List Char} (h : Spelling token lead) :
    ∃ c rest, lead = c :: rest ∧ Text.isBlank c = false ∧ (c == '\x7d' || c == ']') = token.closes ∧
      (token.mark?.isSome → isNumeric c = false) := by
  cases h with
  | mark hmark => cases token <;> cases hmark <;> exact ⟨_, _, rfl, rfl, rfl, fun _ => rfl⟩
  | word hword =>
    cases token with
    | null => cases hword; exact ⟨_, _, rfl, rfl, rfl, nofun⟩
    | bool b => cases b <;> cases hword <;> exact ⟨_, _, rfl, rfl, rfl, nofun⟩
    | _ => cases hword
  | number hpart =>
    obtain ⟨c, rest, rfl⟩ := List.exists_cons_of_ne_nil (hpart.ne_nil rfl)
    have hc := hpart.numeric c List.mem_cons_self
    have hne {d : Char} (hd : isNumeric d = false) : (c == d) = false := by
      refine beq_false_of_ne ?_
      rintro rfl
      rw [hd] at hc
      cases hc
    refine ⟨c, rest, rfl, isBlank_of_isNumeric hc, ?_, nofun⟩
    simp only [hne (d := '\x7d') rfl, hne (d := ']') rfl, Bool.or_false]
    rfl
  | string => exact ⟨_, _, rfl, rfl, rfl, nofun⟩

structure Lexeme where
  chars : List Char
  token : Token
  scans : scan? chars = some (token, [])

theorem Lexeme.spelling (l : Lexeme) : Spelling l.token l.chars := by
  obtain ⟨lead, hchars, hspelling⟩ := spelling_of_scan? l.scans
  rw [List.append_nil] at hchars
  rwa [hchars]

theorem exists_lexeme {chars after : List Char} {token : Token}
    (h : scan? chars = some (token, after)) :
    ∃ l : Lexeme, l.token = token ∧ chars = l.chars ++ after := by
  obtain ⟨lead, rfl, hspelling⟩ := spelling_of_scan? h
  have hscan := hspelling.scan? (fun _ => avoids_nil isNumeric)
  rw [List.append_nil] at hscan
  exact ⟨⟨lead, token, hscan⟩, rfl, rfl⟩

inductive Spelled (filling : List Char → Prop) : List Lexeme → List Char → Prop
  | nil : Spelled filling [] []
  | fill {gap ls text} : filling gap → Spelled filling ls text → Spelled filling ls (gap ++ text)
  | lexeme {ls text} (l : Lexeme) : Spelled filling ls text →
    Spelled filling (l :: ls) (l.chars ++ text)

def Blank (gap : List Char) : Prop := ∃ c, isSpace c = true ∧ gap = [c]

theorem Spelled.append {filling : List Char → Prop} {ls ls' : List Lexeme} {text text' : List Char}
    (h : Spelled filling ls text) (h' : Spelled filling ls' text') :
    Spelled filling (ls ++ ls') (text ++ text') := by
  induction h with
  | nil => exact h'
  | fill hgap _ ih => rw [List.append_assoc]; exact .fill hgap ih
  | lexeme l _ ih => rw [List.append_assoc]; exact .lexeme l ih

structure Follows (a b : Token) : Prop where
  number : a.isNumber = true → b.mark?.isSome
  comma : a = .comma → b.closes = false

theorem Reader.mark_of_afterValue {v : Value} {stack : List Frame} {r : Reader} {token : Token}
    (h : step ⟨.afterValue v, stack⟩ token = some r) : token.mark?.isSome := by
  cases token with
  | null | bool _ | number _ | string _ =>
    cases stack with
    | nil => cases h
    | cons f stack => cases f <;> cases h
  | _ => rfl

theorem Reader.step_number {r r' : Reader} {text : String} (h : r.step (.number text) = some r') :
    ∃ stack, r' = ⟨.afterValue (.number text), stack⟩ := by
  obtain ⟨expects, stack⟩ := r
  cases expects with
  | value | elementOrEnd => cases h; exact ⟨_, rfl⟩
  | afterValue v => cases mark_of_afterValue h
  | _ => cases h

theorem Reader.step_comma {r r' r'' : Reader} {token : Token} (h : r.step .comma = some r')
    (h' : r'.step token = some r'') : token.closes = false := by
  obtain ⟨expects, stack⟩ := r
  cases expects with
  | afterValue v =>
    cases stack with
    | nil => cases h
    | cons f stack =>
      cases token with
      | closeBrace | closeBracket => cases f <;> cases h <;> cases h'
      | _ => rfl
  | _ => cases h

theorem follows_of_step {r r' r'' : Reader} {a b : Token} (h : r.step a = some r')
    (h' : r'.step b = some r'') : Follows a b := by
  constructor
  · intro hnumber
    cases a with
    | number text =>
      obtain ⟨stack, rfl⟩ := Reader.step_number h
      exact Reader.mark_of_afterValue h'
    | _ => cases hnumber
  · rintro rfl
    exact Reader.step_comma h h'

theorem isChain_of_foldlM {tokens : List Token} {r r' : Reader}
    (h : tokens.foldlM Reader.step r = some r') : tokens.IsChain Follows := by
  induction tokens generalizing r with
  | nil => exact .nil
  | cons a tokens ih =>
    obtain ⟨r₁, ha, h⟩ := Option.bind_eq_some_iff.1 h
    cases tokens with
    | nil => exact .singleton a
    | cons b tokens =>
      obtain ⟨r₂, hb, -⟩ := Option.bind_eq_some_iff.1 h
      exact .cons_cons (follows_of_step ha hb) (ih h)

theorem isChain_of_ofTokens? {tokens : List Token} {v : Value} (h : ofTokens? tokens = some v) :
    tokens.IsChain Follows := by
  obtain ⟨r, hr, -⟩ := Option.bind_eq_some_iff.1 h
  exact isChain_of_foldlM hr

theorem isSpace_cases {c : Char} (h : isSpace c = true) :
    ((c = ' ' ∨ c = '\n') ∨ c = '\t') ∨ c = '\r' := by
  simpa [isSpace] using h

theorem avoids_of_spelled {ls : List Lexeme} {text : List Char} (h : Spelled Blank ls text)
    (hmark : ∀ l ∈ ls.head?, l.token.mark?.isSome) : Avoids isNumeric text := by
  cases h with
  | nil => exact avoids_nil _
  | fill hgap _ =>
    obtain ⟨c, hc, rfl⟩ := hgap
    refine avoids_cons.2 ?_
    rcases isSpace_cases hc with ((rfl | rfl) | rfl) | rfl <;> rfl
  | lexeme l _ =>
    obtain ⟨c, rest, hchars, -, -, hfree⟩ := l.spelling.head
    rw [hchars]
    exact avoids_cons.2 (hfree (hmark l rfl))

theorem tokens?_blank {c : Char} (h : isSpace c = true) (text : List Char) :
    tokens? (c :: text) = tokens? text := by
  rw [tokens?, if_pos h]

theorem tokens?_of_scan? {c : Char} {rest after : List Char} {token : Token}
    (hc : Text.isBlank c = false) (h : scan? (c :: rest) = some (token, after)) :
    tokens? (c :: rest) = (tokens? after).map (token :: ·) := by
  have hspace : ¬ isSpace c = true := by
    intro hspace
    rcases isSpace_cases hspace with ((rfl | rfl) | rfl) | rfl <;> cases hc
  rw [tokens?, if_neg hspace]
  split
  next hnone => rw [h] at hnone; cases hnone
  next hsome => rw [h] at hsome; cases hsome; rfl

theorem tokens?_of_spelled {ls : List Lexeme} {text : List Char} (h : Spelled Blank ls text)
    (hchain : (ls.map (·.token)).IsChain Follows) : tokens? text = some (ls.map (·.token)) := by
  induction h with
  | nil => rw [tokens?]; rfl
  | fill hgap _ ih =>
    obtain ⟨c, hc, rfl⟩ := hgap
    exact (tokens?_blank hc _).trans (ih hchain)
  | @lexeme ls text l hrest ih =>
    have hscan : scan? (l.chars ++ text) = some (l.token, text) := by
      refine l.spelling.scan? fun hnumber => avoids_of_spelled hrest ?_
      intro next hnext
      obtain ⟨ls, rfl⟩ := List.head?_eq_some_iff.1 hnext
      exact hchain.rel.number hnumber
    obtain ⟨c, rest, hchars, hc, -⟩ := l.spelling.head
    rw [hchars, List.cons_append] at hscan ⊢
    rw [tokens?_of_scan? hc hscan, ih hchain.tail]
    rfl

theorem exists_spelled {text : List Char} {tokens : List Token} (h : tokens? text = some tokens) :
    ∃ ls : List Lexeme, ls.map (·.token) = tokens ∧ Spelled Blank ls text := by
  fun_induction tokens? text generalizing tokens with
  | case1 =>
    cases h
    exact ⟨[], rfl, .nil⟩
  | case2 c rest hc ih =>
    obtain ⟨ls, hls, hspelled⟩ := ih h
    exact ⟨ls, hls, .fill ⟨c, hc, rfl⟩ hspelled⟩
  | case3 => cases h
  | case4 c rest _ token after hscan ih =>
    obtain ⟨tokens, htokens, rfl⟩ := Option.map_eq_some_iff.1 h
    obtain ⟨ls, rfl, hspelled⟩ := ih htokens
    obtain ⟨l, rfl, hchars⟩ := exists_lexeme hscan
    rw [hchars]
    exact ⟨l :: ls, rfl, .lexeme l hspelled⟩

end PropSchema.Json
