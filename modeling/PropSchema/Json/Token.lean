namespace PropSchema.Json

/-- The content of a string. It is `none` if an escape names half of a surrogate pair and the other
half does not follow: such a string is well written, but has no content. -/
abbrev Content := Option String

inductive Token
  | openBrace
  | closeBrace
  | openBracket
  | closeBracket
  | comma
  | colon
  | null
  | bool (value : Bool)
  | number (text : String)
  | string (content : Content)
  deriving DecidableEq, Repr

inductive Piece
  | char (c : Char)
  | unit (n : Nat)
  deriving DecidableEq, Repr

def isHighSurrogate (n : Nat) : Bool := 0xD800 ≤ n && n < 0xDC00

def isLowSurrogate (n : Nat) : Bool := 0xDC00 ≤ n && n < 0xE000

def contentOf : List Piece → Option (List Char)
  | [] => some []
  | .char c :: rest => (contentOf rest).map (c :: ·)
  | .unit high :: .unit low :: rest =>
    if isHighSurrogate high then
      if isLowSurrogate low then
        (contentOf rest).map (Char.ofNat (0x10000 + (high - 0xD800) * 0x400 + (low - 0xDC00)) :: ·)
      else none
    else if isLowSurrogate high then none
    else (contentOf (.unit low :: rest)).map (Char.ofNat high :: ·)
  | .unit n :: rest =>
    if isHighSurrogate n || isLowSurrogate n then none
    else (contentOf rest).map (Char.ofNat n :: ·)

def hexValue? (c : Char) : Option Nat :=
  if '0' ≤ c ∧ c ≤ '9' then some (c.toNat - '0'.toNat)
  else if 'a' ≤ c ∧ c ≤ 'f' then some (c.toNat - 'a'.toNat + 10)
  else if 'A' ≤ c ∧ c ≤ 'F' then some (c.toNat - 'A'.toNat + 10)
  else none

def hex4? (a b c d : Char) : Option Nat := do
  return (((← hexValue? a) * 16 + (← hexValue? b)) * 16 + (← hexValue? c)) * 16 + (← hexValue? d)

def escape? : Char → Option Char
  | '"' => some '"'
  | '\\' => some '\\'
  | '/' => some '/'
  | 'b' => some '\x08'
  | 'f' => some '\x0c'
  | 'n' => some '\n'
  | 'r' => some '\r'
  | 't' => some '\t'
  | _ => none

def scanString : List Char → Option (List Piece × List Char)
  | [] => none
  | '"' :: rest => some ([], rest)
  | '\\' :: 'u' :: a :: b :: c :: d :: rest => do
    let n ← hex4? a b c d
    let (pieces, after) ← scanString rest
    return (.unit n :: pieces, after)
  | '\\' :: e :: rest => do
    let c ← escape? e
    let (pieces, after) ← scanString rest
    return (.char c :: pieces, after)
  | c :: rest =>
    if c == '\\' || c.toNat < 0x20 then none
    else (scanString rest).map fun (pieces, after) => (.char c :: pieces, after)

theorem length_scanString {chars : List Char} : ∀ {pieces : List Piece} {after : List Char},
    scanString chars = some (pieces, after) → after.length < chars.length := by
  fun_induction scanString chars with
  | case1 => simp
  | case2 rest => simp_all
  | case3 a b c d rest ih =>
    intro pieces after h
    simp only [Option.bind_eq_bind, Option.bind_eq_some_iff] at h
    obtain ⟨n, -, ⟨pieces', after'⟩, hs, he⟩ := h
    have := ih hs
    simp_all
    omega
  | case4 e rest _ ih =>
    intro pieces after h
    simp only [Option.bind_eq_bind, Option.bind_eq_some_iff] at h
    obtain ⟨n, -, ⟨pieces', after'⟩, hs, he⟩ := h
    have := ih hs
    simp_all
    omega
  | case5 => simp
  | case6 c rest _ _ _ _ ih =>
    intro pieces after h
    obtain ⟨⟨pieces', after'⟩, hs, he⟩ := Option.map_eq_some_iff.1 h
    have := ih hs
    simp_all
    omega

def digits? (chars : List Char) : Option (List Char × List Char) :=
  match chars.takeWhile Char.isDigit with
  | [] => none
  | digits => some (digits, chars.dropWhile Char.isDigit)

theorem length_digits? {chars digits after : List Char} (h : digits? chars = some (digits, after)) :
    after.length < chars.length := by
  unfold digits? at h
  split at h
  next => simp at h
  next hd =>
    have hsum := congrArg List.length
      (List.takeWhile_append_dropWhile (p := Char.isDigit) (l := chars))
    have hpos := List.length_pos_iff.2 hd
    simp only [Option.some.injEq, Prod.mk.injEq] at h
    simp only [List.length_append] at hsum
    rw [← h.2]
    omega

def scanWhole? : List Char → Option (List Char × List Char)
  | '0' :: rest => some (['0'], rest)
  | chars => digits? chars

theorem length_scanWhole? {chars whole after : List Char}
    (h : scanWhole? chars = some (whole, after)) : after.length < chars.length := by
  unfold scanWhole? at h
  split at h
  next => simp_all
  next => exact length_digits? h

def scanFraction? : List Char → Option (List Char × List Char)
  | '.' :: rest => (digits? rest).map fun (digits, after) => ('.' :: digits, after)
  | chars => some ([], chars)

theorem length_scanFraction? {chars fraction after : List Char}
    (h : scanFraction? chars = some (fraction, after)) : after.length ≤ chars.length := by
  unfold scanFraction? at h
  split at h
  next =>
    obtain ⟨⟨digits, rest⟩, hd, he⟩ := Option.map_eq_some_iff.1 h
    have := length_digits? hd
    simp_all
    omega
  next => simp_all

def scanExponent? : List Char → Option (List Char × List Char)
  | mark :: rest =>
    if mark == 'e' || mark == 'E' then
      match rest with
      | '+' :: rest => (digits? rest).map fun (digits, after) => (mark :: '+' :: digits, after)
      | '-' :: rest => (digits? rest).map fun (digits, after) => (mark :: '-' :: digits, after)
      | _ => (digits? rest).map fun (digits, after) => (mark :: digits, after)
    else some ([], mark :: rest)
  | [] => some ([], [])

theorem length_scanExponent? {chars exponent after : List Char}
    (h : scanExponent? chars = some (exponent, after)) : after.length ≤ chars.length := by
  unfold scanExponent? at h
  split at h
  next =>
    split at h
    next =>
      split at h <;>
      · obtain ⟨⟨digits, rest⟩, hd, he⟩ := Option.map_eq_some_iff.1 h
        have := length_digits? hd
        simp_all
        omega
    next => simp_all
  next => simp_all

def scanNumber? (chars : List Char) : Option (List Char × List Char) := do
  let (sign, unsigned) := match chars with
    | '-' :: rest => (['-'], rest)
    | _ => ([], chars)
  let (whole, rest) ← scanWhole? unsigned
  let (fraction, rest) ← scanFraction? rest
  let (exponent, rest) ← scanExponent? rest
  return (sign ++ whole ++ fraction ++ exponent, rest)

theorem length_scanNumber? {chars text after : List Char}
    (h : scanNumber? chars = some (text, after)) : after.length < chars.length := by
  simp only [scanNumber?, Option.bind_eq_bind, Option.bind_eq_some_iff] at h
  obtain ⟨⟨whole, afterWhole⟩, hw, ⟨fraction, afterFraction⟩, hf, ⟨exponent, rest⟩, he, hr⟩ := h
  have hw := length_scanWhole? hw
  have hf := length_scanFraction? hf
  have he := length_scanExponent? he
  have : rest = after := by simp_all
  split at hw <;> simp_all <;> omega

def isSpace (c : Char) : Bool := c == ' ' || c == '\n' || c == '\t' || c == '\r'

def scan? : List Char → Option (Token × List Char)
  | '\x7b' :: rest => some (.openBrace, rest)
  | '\x7d' :: rest => some (.closeBrace, rest)
  | '[' :: rest => some (.openBracket, rest)
  | ']' :: rest => some (.closeBracket, rest)
  | ',' :: rest => some (.comma, rest)
  | ':' :: rest => some (.colon, rest)
  | 'n' :: 'u' :: 'l' :: 'l' :: rest => some (.null, rest)
  | 't' :: 'r' :: 'u' :: 'e' :: rest => some (.bool true, rest)
  | 'f' :: 'a' :: 'l' :: 's' :: 'e' :: rest => some (.bool false, rest)
  | '"' :: rest =>
    (scanString rest).map fun (pieces, after) =>
      (.string ((contentOf pieces).map String.ofList), after)
  | chars => (scanNumber? chars).map fun (text, after) => (.number (String.ofList text), after)

theorem length_scan? {chars after : List Char} {token : Token}
    (h : scan? chars = some (token, after)) : after.length < chars.length := by
  unfold scan? at h
  split at h
  case h_10 =>
    obtain ⟨⟨pieces, rest⟩, hs, he⟩ := Option.map_eq_some_iff.1 h
    have := length_scanString hs
    simp_all
    omega
  case h_11 =>
    obtain ⟨⟨text, rest⟩, hs, he⟩ := Option.map_eq_some_iff.1 h
    have := length_scanNumber? hs
    simp_all
  all_goals simp_all; try omega

def tokens? (chars : List Char) : Option (List Token) :=
  match chars with
  | [] => some []
  | c :: rest =>
    if isSpace c then tokens? rest
    else
      match _h : scan? (c :: rest) with
      | none => none
      | some (token, after) => (tokens? after).map (token :: ·)
  termination_by chars.length
  decreasing_by
    · simp
    · exact length_scan? _h

end PropSchema.Json
