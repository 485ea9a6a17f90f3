namespace PropSchema

namespace Text

def bytes (text : String) : List UInt8 := text.toList.flatMap String.utf8EncodeChar

def replacement : Char := '�'

def firstChar? (bytes : List UInt8) : Option Char := (bytes.take 4).toByteArray.utf8DecodeChar? 0

def isContinuation (b : UInt8) : Bool := 0x80 ≤ b && b ≤ 0xBF

-- Four first bytes leave less than the whole range to the second: the rest of it would encode a
-- character that has a shorter encoding, a surrogate, or nothing at all.
def opens (b c : UInt8) : Bool :=
  if b == 0xE0 then 0xA0 ≤ c && c ≤ 0xBF
  else if b == 0xED then 0x80 ≤ c && c ≤ 0x9F
  else if b == 0xF0 then 0x90 ≤ c && c ≤ 0xBF
  else if b == 0xF4 then 0x80 ≤ c && c ≤ 0x8F
  else 0xE1 ≤ b && b ≤ 0xF3 && isContinuation c

/-- How many bytes are given up together, at the start of bytes that start with no character: as
many as could have been the start of one. -/
def brokenLength : List UInt8 → Nat
  | b :: c :: rest =>
    if opens b c then if 0xF0 ≤ b && rest.head?.any isContinuation then 3 else 2 else 1
  | _ => 1

def lossyChars : Nat → List UInt8 → List Char
  | _, [] => []
  | read + 1, _ :: rest => lossyChars read rest
  | 0, b :: rest =>
    match firstChar? (b :: rest) with
    | some c => c :: lossyChars (c.utf8Size - 1) rest
    | none => replacement :: lossyChars (brokenLength (b :: rest) - 1) rest

def lossy (bytes : List UInt8) : String := String.ofList (lossyChars 0 bytes)

end Text

end PropSchema
