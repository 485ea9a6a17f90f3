/-!
Ignore patterns. A star matches any sequence of characters, two stars any sequence of whole path
components, a question mark one character, and brackets one character of a class or outside it.
-/

namespace PropSchema.Glob

inductive ClassItem
  | one (c : Char)
  | range (first last : Char)
  deriving DecidableEq, Repr

def ClassItem.contains : ClassItem → Char → Bool
  | .one c, d => c == d
  | .range first last, d => first ≤ d && d ≤ last

inductive Token
  | char (c : Char)
  | anyChar
  | anySequence
  | anyComponents
  | within (items : List ClassItem)
  | except (items : List ClassItem)
  deriving DecidableEq, Repr

abbrev Pattern := List Token

inductive Cause
  /-- More than two stars in a row. -/
  | wildcards
  /-- Two stars that are not a whole component. -/
  | recursion
  /-- Brackets without an end. -/
  | range
  deriving DecidableEq, Repr

structure Error where
  position : Nat
  cause : Cause
  deriving DecidableEq, Repr

def Cause.message : Cause → String
  | .wildcards => "wildcards are either regular `*` or recursive `**`"
  | .recursion => "recursive wildcards must form a single path component"
  | .range => "invalid range pattern"

def Error.message (e : Error) : String :=
  "Pattern syntax error near position " ++ String.ofList (Nat.toDigits 10 e.position) ++ ": " ++
    e.cause.message

def classItems : List Char → List ClassItem
  | first :: '-' :: last :: rest => .range first last :: classItems rest
  | c :: rest => .one c :: classItems rest
  | [] => []

def classBody? : List Char → Option (List Char × List Char)
  | [] => none
  | first :: rest =>
    match rest.dropWhile (· != ']') with
    | _ :: after => some (first :: rest.takeWhile (· != ']'), after)
    | [] => none

theorem length_classBody? {chars body after : List Char}
    (h : classBody? chars = some (body, after)) : after.length < chars.length := by
  cases chars with
  | nil => simp [classBody?] at h
  | cons first rest =>
    simp only [classBody?] at h
    split at h
    next hd =>
      have := (List.dropWhile_sublist (· != ']') (l := rest)).length_le
      simp_all
      omega
    next => simp at h

def class? : List Char → Option (Token × List Char)
  | '!' :: chars => (classBody? chars).map fun (body, after) => (.except (classItems body), after)
  | chars => (classBody? chars).map fun (body, after) => (.within (classItems body), after)

theorem length_class? {chars after : List Char} {token : Token}
    (h : class? chars = some (token, after)) : after.length < chars.length := by
  unfold class? at h
  split at h <;>
  · obtain ⟨⟨body, rest⟩, hb, he⟩ := Option.map_eq_some_iff.1 h
    have := length_classBody? hb
    simp_all
    try omega

def consComponents : Pattern → Pattern
  | .anyComponents :: rest => .anyComponents :: rest
  | rest => .anyComponents :: rest

/-- The pattern of a text, where `position` counts the characters before it and `previous` is the
last of them. -/
def compileFrom (position : Nat) (previous : Option Char) (chars : List Char) :
    Except Error Pattern :=
  match chars with
  | [] => .ok []
  | '*' :: '*' :: '*' :: _ => .error ⟨position + 2, .wildcards⟩
  | '*' :: '*' :: rest =>
    if previous.all (· == '/') then
      match rest with
      | [] => .ok [.anyComponents]
      | '/' :: rest => (compileFrom (position + 3) (some '/') rest).map consComponents
      | _ => .error ⟨position + 2, .recursion⟩
    else .error ⟨position - 1, .recursion⟩
  | '*' :: rest => (compileFrom (position + 1) (some '*') rest).map (.anySequence :: ·)
  | '?' :: rest => (compileFrom (position + 1) (some '?') rest).map (.anyChar :: ·)
  | '[' :: rest =>
    match _h : class? rest with
    | none => .error ⟨position, .range⟩
    | some (token, after) =>
      (compileFrom (position + 1 + (rest.length - after.length)) (some ']') after).map (token :: ·)
  | c :: rest => (compileFrom (position + 1) (some c) rest).map (.char c :: ·)
  termination_by chars.length
  decreasing_by
    · simp; omega
    · simp
    · simp
    · have := length_class? _h
      simp; omega
    · simp

def compile (text : String) : Except Error Pattern := compileFrom 0 none text.toList

def suffixes : List Char → List (List Char)
  | [] => [[]]
  | c :: rest => (c :: rest) :: suffixes rest

def componentSuffixes : List Char → List (List Char)
  | [] => [[]]
  | c :: rest => if c == '/' then rest :: componentSuffixes rest else componentSuffixes rest

def Token.accepts : Token → Char → Bool
  | .char c, d => c == d
  | .anyChar, _ => true
  | .within items, c => items.any (·.contains c)
  | .except items, c => ! items.any (·.contains c)
  | .anySequence, _ | .anyComponents, _ => false

def matchesList : Pattern → List Char → Bool
  | [], chars => chars.isEmpty
  | .anySequence :: rest, chars => (suffixes chars).any (matchesList rest)
  | .anyComponents :: rest, chars =>
    matchesList rest chars || (componentSuffixes chars).any (matchesList rest)
  | _ :: _, [] => false
  | token :: rest, c :: chars => token.accepts c && matchesList rest chars

/-! ### Rows

A row tells for every suffix of a text, the longest first, whether a pattern matches it. The row of
a pattern is found from the row of the pattern without its first token in one pass.
-/

def charRow (token : Token) : List Char → List Bool → List Bool
  | c :: chars, _ :: next :: later =>
    (token.accepts c && next) :: charRow token chars (next :: later)
  | _, _ => [false]

def sequenceRow : List Bool → List Bool
  | [] => []
  | here :: later =>
    let rest := sequenceRow later
    (here || rest.headD false) :: rest

def componentRow : List Char → List Bool → List Bool
  | c :: chars, _ :: next :: later =>
    let rest := componentRow chars (next :: later)
    ((c == '/' && next) || rest.headD false) :: rest
  | _, row => row

def row (chars : List Char) : Pattern → List Bool
  | [] => (suffixes chars).map (·.isEmpty)
  | .anySequence :: rest => sequenceRow (row chars rest)
  | .anyComponents :: rest =>
    let here := row chars rest
    List.zipWith (· || ·) here (componentRow chars here)
  | token :: rest => charRow token chars (row chars rest)

def Pattern.matches (p : Pattern) (text : String) : Bool := (row text.toList p).headD false

theorem headD_map_suffixes (f : List Char → Bool) (chars : List Char) :
    ((suffixes chars).map f).headD false = f chars := by
  cases chars <;> rfl

theorem sequenceRow_map (f : List Char → Bool) (chars : List Char) :
    sequenceRow ((suffixes chars).map f) = (suffixes chars).map fun s => (suffixes s).any f := by
  induction chars with
  | nil => simp [suffixes, sequenceRow]
  | cons c rest ih =>
    simp only [suffixes, List.map_cons, sequenceRow, ih, headD_map_suffixes, List.any_cons]

theorem charRow_map (token : Token) (f : List Char → Bool) (chars : List Char) :
    charRow token chars ((suffixes chars).map f) = (suffixes chars).map fun
      | [] => false
      | c :: rest => token.accepts c && f rest := by
  induction chars with
  | nil => rfl
  | cons c rest ih => cases rest <;> simp_all [suffixes, charRow]

theorem componentRow_map (f : List Char → Bool) (chars : List Char) :
    componentRow chars ((suffixes chars).map f) =
      (suffixes chars).map fun s => (componentSuffixes s).any f := by
  induction chars with
  | nil => simp [suffixes, componentSuffixes, componentRow]
  | cons c rest ih =>
    have h : (suffixes rest).map f = f rest :: ((suffixes rest).map f).tail := by
      cases rest <;> rfl
    rw [suffixes, List.map_cons, h, componentRow, ← h, ih, headD_map_suffixes, List.map_cons]
    by_cases hc : c = '/' <;> simp [componentSuffixes, hc]

theorem row_eq (chars : List Char) (p : Pattern) :
    row chars p = (suffixes chars).map (matchesList p) := by
  induction p with
  | nil => rfl
  | cons token rest ih =>
    cases token with
    | anySequence => simp only [row, ih, sequenceRow_map, matchesList]
    | anyComponents =>
      simp only [row, ih, componentRow_map, List.zipWith_map_left, List.zipWith_map_right,
        List.zipWith_self, matchesList]
    | _ =>
      simp only [row, ih, charRow_map]
      congr 1
      funext s
      cases s <;> rfl

theorem matches_eq (p : Pattern) (text : String) : p.matches text = matchesList p text.toList := by
  rw [Pattern.matches, row_eq, headD_map_suffixes]

end PropSchema.Glob
