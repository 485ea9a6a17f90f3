namespace PropSchema

def twoPow (n : Nat) : Nat := Nat.pow 2 n

def tenPow (n : Nat) : Nat := Nat.pow 10 n

/-- The value `significand * 2 ^ exponent`. The significand is below `2 ^ 53`, and not below
`2 ^ 52` unless the exponent is the least one, -1074. -/
structure Binary64 where
  significand : Nat
  exponent : Int
  deriving DecidableEq, Repr

namespace Binary64

def leastExponent : Int := -1074

def greatestExponent : Int := 971

def fraction (b : Binary64) : Nat × Nat :=
  (b.significand * twoPow b.exponent.toNat, twoPow (-b.exponent).toNat)

/-- The greatest `k` with `2 ^ k ≤ num / den`, for positive `num` and `den`. -/
def floorLog2 (num den : Nat) : Int :=
  let k : Int := num.log2 - den.log2
  if num * twoPow (-k).toNat < den * twoPow k.toNat then k - 1 else k

def roundDiv (num den : Nat) : Nat :=
  let q := num / den
  let r := num % den
  if 2 * r < den || (2 * r == den && q % 2 == 0) then q else q + 1

def ofFraction? (num den : Nat) : Option Binary64 :=
  if num = 0 then some ⟨0, leastExponent⟩
  else
    let exponent := max leastExponent (floorLog2 num den - 52)
    let rounded := roundDiv (num * twoPow (-exponent).toNat) (den * twoPow exponent.toNat)
    let b : Binary64 :=
      if rounded = twoPow 53 then ⟨twoPow 52, exponent + 1⟩ else ⟨rounded, exponent⟩
    if b.exponent > greatestExponent then none else some b

end Binary64

end PropSchema
