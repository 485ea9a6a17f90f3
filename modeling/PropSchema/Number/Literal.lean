import PropSchema.Number.Shortest
import PropSchema.Text.Affix
import PropSchema.Text.Blank

namespace PropSchema.NumberLiteral

inductive Value
  | nan
  | infinite (negative : Bool)
  | finite (negative : Bool) (magnitude : Binary64)
  deriving DecidableEq, Repr

def Value.negate : Value → Value
  | .nan => .nan
  | .infinite s => .infinite (! s)
  | .finite s m => .finite (! s) m

def digit? (base : Nat) (c : Char) : Option Nat :=
  let d :=
    if '0' ≤ c ∧ c ≤ '9' then c.toNat - '0'.toNat
    else if 'a' ≤ c ∧ c ≤ 'f' then c.toNat - 'a'.toNat + 10
    else if 'A' ≤ c ∧ c ≤ 'F' then c.toNat - 'A'.toNat + 10
    else base
  if d < base then some d else none

def digits? (base : Nat) (chars : List Char) : Option Nat :=
  chars.foldlM (fun n c => (digit? base c).map (base * n + ·)) 0

def word? (base : Nat) (chars : List Char) : Option Nat :=
  let body := match chars with
    | '+' :: rest => rest
    | _ => chars
  if body.isEmpty then none
  else (digits? base body).filter (· < twoPow 64)

def ofFraction (negative : Bool) (num den : Nat) : Value :=
  match Binary64.ofFraction? num den with
  | some b => .finite negative b
  | none => .infinite negative

def ofDecimal (negative : Bool) (digits : Nat) (exponent : Int) : Value :=
  let magnitude := exponent + (digitText digits).length
  if digits = 0 || magnitude < -400 then ofFraction negative 0 1
  else if 400 < magnitude then .infinite negative
  else ofFraction negative (digits * tenPow exponent.toNat) (tenPow (-exponent).toNat)

def splitSign : List Char → Bool × List Char
  | '-' :: rest => (true, rest)
  | '+' :: rest => (false, rest)
  | chars => (false, chars)

def exponent? : List Char → Option Int
  | [] => some 0
  | mark :: rest =>
    if mark == 'e' || mark == 'E' then
      let (negative, body) := splitSign rest
      if body.isEmpty then none
      else (digits? 10 body).map fun n => if negative then -(n : Int) else n
    else none

def decimal? (negative : Bool) (chars : List Char) : Option Value := do
  let whole := chars.takeWhile Char.isDigit
  let (places, rest) := match chars.dropWhile Char.isDigit with
    | '.' :: rest => (rest.takeWhile Char.isDigit, rest.dropWhile Char.isDigit)
    | rest => ([], rest)
  if whole.isEmpty && places.isEmpty then none
  else
    let digits ← digits? 10 (whole ++ places)
    return ofDecimal negative digits ((← exponent? rest) - places.length)

def float? (chars : List Char) : Option Value :=
  let (negative, body) := splitSign chars
  match String.ofList (body.map Char.toLower) with
  | "inf" | "infinity" => some (.infinite negative)
  | "nan" => some .nan
  | _ => decimal? negative body

def unsigned? : List Char → Option Value
  | '0' :: 'x' :: rest | '0' :: 'X' :: rest => (word? 16 rest).map (ofFraction false · 1)
  | '0' :: 'o' :: rest | '0' :: 'O' :: rest => (word? 8 rest).map (ofFraction false · 1)
  | '0' :: 'b' :: rest | '0' :: 'B' :: rest => (word? 2 rest).map (ofFraction false · 1)
  | body => float? ((['n'].isSuffixOf? body).getD body)

def value? (text : String) : Option Value :=
  let (negative, body) := splitSign (text.toList.filter fun c => c != '_' && ! Text.isBlank c)
  (unsigned? body).map fun v => if negative then v.negate else v

def magnitudeText (b : Binary64) : List Char :=
  let (num, den) := b.fraction
  if num % den = 0 ∧ num < tenPow 21 * den then digitText (num / den) else b.shortest.positional

def Value.text : Value → String
  | .nan => "NaN"
  | .infinite negative => if negative then "-inf" else "inf"
  | .finite negative magnitude =>
    if magnitude.significand = 0 then "0"
    else (if negative then "-" else "") ++ String.ofList (magnitudeText magnitude)

def canonical? (text : String) : Option String := (value? text).map Value.text

end PropSchema.NumberLiteral
