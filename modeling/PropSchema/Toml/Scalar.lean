import PropSchema.Number.Literal
import PropSchema.Toml.Text

namespace PropSchema.Toml

/-- What a word stands for. A number may be well formed and have no value all the same, because it
is too great or because its characters are not digits of its base. -/
inductive Scalar
  | bool (value : Bool)
  | number (hasValue : Bool)
  | dateTime
  deriving DecidableEq, Repr

def pieces : List Char → List (List Char)
  | [] => [[]]
  | c :: rest =>
    if c = '_' then [] :: pieces rest
    else match pieces rest with
      | first :: others => (c :: first) :: others
      | [] => [[c]]

def isJoined (isDigit : Char → Bool) (chars : List Char) : Bool :=
  match pieces chars with
  | first :: rest =>
    rest.isEmpty || ((first.length == 1 || first.getLast?.any isDigit) &&
      rest.all (·.head?.any isDigit) && rest.dropLast.all (·.getLast?.any isDigit))
  | [] => true

def dropUnderscores (chars : List Char) : List Char := chars.filter (· != '_')

def dropSign : List Char → List Char
  | '+' :: rest => rest
  | '-' :: rest => rest
  | chars => chars

def hasWholeValue (base : Nat) (negative : Bool) (digits : List Char) : Bool :=
  ! digits.isEmpty && (NumberLiteral.digits? base digits).any fun n =>
    if negative then n ≤ twoPow 127 else n < twoPow 128

def marked? (base : Nat) (chars : List Char) : Option Scalar :=
  let isDigit (c : Char) : Bool := (NumberLiteral.digit? base c).isSome
  if (dropUnderscores chars).all isDigit && (chars.isEmpty || (pieces chars).all (! ·.isEmpty)) then
    some (.number (hasWholeValue base false (dropUnderscores chars)))
  else none

def isDigitOrUnderscore (c : Char) : Bool := c.isDigit || c == '_'

def afterDigits? (chars : List Char) : Option (List Char) :=
  if (chars.takeWhile isDigitOrUnderscore).any Char.isDigit then
    some (chars.dropWhile isDigitOrUnderscore)
  else none

def afterPlaces? : List Char → Option (List Char)
  | '.' :: rest => afterDigits? rest
  | chars => some chars

def afterExponent? : List Char → Option (List Char)
  | 'e' :: rest => afterDigits? (dropSign rest)
  | 'E' :: rest => afterDigits? (dropSign rest)
  | chars => some chars

def isDecimal (chars : List Char) : Bool :=
  let whole := dropUnderscores (chars.takeWhile isDigitOrUnderscore)
  ! (chars.head? == some '0' && 1 < whole.length) &&
    (afterDigits? chars >>= afterPlaces? >>= afterExponent?) == some []

def fractional? (chars : List Char) : Option Scalar :=
  if isDecimal (dropSign chars) && isJoined Char.isDigit chars then
    match NumberLiteral.float? (dropUnderscores chars) with
    | some (.finite _ _) => some (.number true)
    | _ => some (.number false)
  else none

/-- A whole number. After the first underscore only the characters beside underscores are checked,
and they may be digits of base sixteen. -/
def whole? (chars : List Char) : Option Scalar :=
  let unsigned := dropSign chars
  let rest := unsigned.dropWhile Char.isDigit
  if unsigned.isEmpty || (unsigned.head? == some '0' && 1 < unsigned.length) then none
  else if (rest.isEmpty || rest.head? == some '_') && ! rest.contains ' '
      && isJoined (fun c => (hexDigit? c).isSome) chars then
    some (.number (hasWholeValue 10 (chars.head? == some '-') (dropSign (dropUnderscores chars))))
  else none

def number? (chars : List Char) : Option Scalar :=
  let isMark (c : Char) : Bool := c == '.' || c == 'e' || c == 'E'
  match chars with
  | '0' :: 'x' :: rest => marked? 16 rest
  | '0' :: 'o' :: rest => marked? 8 rest
  | '0' :: 'b' :: rest => marked? 2 rest
  | _ =>
    match dropSign chars with
    | ['i', 'n', 'f'] => some (.number true)
    | ['n', 'a', 'n'] => some (.number true)
    | unsigned => if unsigned.any isMark then fractional? chars else whole? chars

def digitsValue? (chars : List Char) : Option Nat := NumberLiteral.digits? 10 chars

def isLeapYear (year : Nat) : Bool := year % 4 == 0 && (year % 100 != 0 || year % 400 == 0)

def daysInMonth (year month : Nat) : Nat :=
  if month == 2 then (if isLeapYear year then 29 else 28)
  else if [4, 6, 9, 11].contains month then 30
  else 31

def date? : List Char → Option (List Char)
  | a :: b :: c :: d :: '-' :: e :: f :: '-' :: g :: h :: rest => do
    let year ← digitsValue? [a, b, c, d]
    let month ← digitsValue? [e, f]
    let day ← digitsValue? [g, h]
    if 1 ≤ month ∧ month ≤ 12 ∧ 1 ≤ day ∧ day ≤ daysInMonth year month then some rest else none
  | _ => none

def isTwoDigits (greatest : Nat) (a b : Char) : Bool := (digitsValue? [a, b]).any (· ≤ greatest)

def fraction? : List Char → Option (List Char)
  | '.' :: rest =>
    if rest.head?.any Char.isDigit then some (rest.dropWhile Char.isDigit) else none
  | chars => some chars

def time? : List Char → Option (List Char)
  | a :: b :: ':' :: c :: d :: ':' :: e :: f :: rest =>
    if isTwoDigits 23 a b && isTwoDigits 59 c d && isTwoDigits 60 e f then fraction? rest else none
  | a :: b :: ':' :: c :: d :: rest =>
    if isTwoDigits 23 a b && isTwoDigits 59 c d then some rest else none
  | _ => none

def isOffset : List Char → Bool
  | [] => true
  | ['Z'] => true
  | ['z'] => true
  | sign :: a :: b :: ':' :: c :: d :: [] =>
    (sign == '+' || sign == '-') && isTwoDigits 23 a b && isTwoDigits 59 c d
  | _ => false

def isDateTime (chars : List Char) : Bool :=
  match date? chars with
  | some [] => true
  | some (mark :: rest) =>
    (mark == 'T' || mark == 't' || mark == ' ') && (time? rest).any isOffset
  | none => time? chars == some []

def scalar? (chars : List Char) : Option Scalar :=
  match chars with
  | ['t', 'r', 'u', 'e'] => some (.bool true)
  | ['f', 'a', 'l', 's', 'e'] => some (.bool false)
  | _ => if isDateTime chars then some .dateTime else number? chars

def isWordChar (c : Char) : Bool :=
  ! ['=', ',', '[', ']', '\x7b', '\x7d', ' ', '\t', '#', '\r', '\n'].contains c

def goesOn (chars : List Char) : Bool :=
  (skipSpaces chars).head?.any fun c =>
    isWordChar c && c != '.' && c != '"' && c != '\x27'

def word : List Char → List Char × List Char
  | [] => ([], [])
  | c :: rest =>
    if isWordChar c || (isSpace c && goesOn rest) then
      let (others, after) := word rest
      (c :: others, after)
    else ([], c :: rest)

end PropSchema.Toml
