import PropSchema.Number.Binary64

/-!
The shortest decimal that is nearer to a number with 53 binary digits than to any other such number.
-/

namespace PropSchema

structure Decimal where
  digits : Nat
  exponent : Int
  deriving DecidableEq, Repr

def digitText (n : Nat) : List Char := Nat.toDigits 10 n

def Decimal.positional (d : Decimal) : List Char :=
  let digits := digitText d.digits
  if 0 ≤ d.exponent then digits ++ List.replicate d.exponent.toNat '0'
  else
    let places := (-d.exponent).toNat
    let padded := List.replicate (places + 1 - digits.length) '0' ++ digits
    padded.take (padded.length - places) ++ '.' :: padded.drop (padded.length - places)

namespace Binary64

/-- Four times the value and the ends of the interval of reals that round to it, over one
denominator. Below a power of two the neighbours are twice as close. -/
def interval (b : Binary64) : Nat × Nat × Nat × Nat :=
  let scale := twoPow b.exponent.toNat
  let value := 4 * b.significand
  let below := if b.significand = twoPow 52 then 1 else 2
  ((value - below) * scale, value * scale, (value + 2) * scale, 4 * twoPow (-b.exponent).toNat)

def magnitude (num den : Nat) : Int :=
  if den ≤ num then (digitText (num / den)).length
  else
    let places := (digitText (den / num)).length
    if num * tenPow (places - 1) < den then 1 - places else 2 - places

/-- The nearest decimal with so many digits that rounds back to the number. Of two that are equally
near the greater one is taken. -/
def withDigits? (b : Binary64) (count : Nat) : Option Decimal :=
  let (low, value, high, den) := b.interval
  let exponent := magnitude value den - count
  let unit := den * tenPow exponent.toNat
  let scale := tenPow (-exponent).toNat
  let reads (n : Nat) : Bool :=
    if b.significand % 2 = 0 then low * scale ≤ n * unit && n * unit ≤ high * scale
    else low * scale < n * unit && n * unit < high * scale
  let down := value * scale / unit
  let up := if value * scale % unit = 0 then down else down + 1
  let nearer := if 2 * (value * scale % unit) < unit then down else up
  let farther := if nearer = down then up else down
  let decimal (n : Nat) : Decimal :=
    if n = tenPow count then ⟨tenPow (count - 1), exponent + 1⟩ else ⟨n, exponent⟩
  if reads nearer then some (decimal nearer)
  else if reads farther then some (decimal farther)
  else none

def shortest (b : Binary64) : Decimal :=
  ((List.range' 1 17).findSome? b.withDigits?).getD ⟨0, 0⟩

end Binary64

end PropSchema
