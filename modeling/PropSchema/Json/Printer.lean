import PropSchema.Json.Value

namespace PropSchema.Json

def hexDigit (n : Nat) : Char := Nat.digitChar n

def escapeChar (c : Char) : List Char :=
  match c with
  | '"' => ['\\', '"']
  | '\\' => ['\\', '\\']
  | '\x08' => ['\\', 'b']
  | '\x0c' => ['\\', 'f']
  | '\n' => ['\\', 'n']
  | '\r' => ['\\', 'r']
  | '\t' => ['\\', 't']
  | c =>
    if c.toNat < 0x20 then ['\\', 'u', '0', '0', hexDigit (c.toNat / 16), hexDigit (c.toNat % 16)]
    else [c]

def quote (s : String) : String := String.ofList ('"' :: (s.toList.flatMap escapeChar ++ ['"']))

def contentText (content : Content) : String := quote (content.getD "")

inductive Layout
  | compact
  | indented
  deriving DecidableEq, Repr

def Layout.newline (l : Layout) (level : Nat) : String :=
  match l with
  | .compact => ""
  | .indented => String.ofList ('\n' :: List.replicate (2 * level) ' ')

def Layout.colon : Layout → String
  | .compact => ":"
  | .indented => ": "

def Layout.enclose (l : Layout) (level : Nat) (first last : String) (parts : List String) :
    String :=
  if parts.isEmpty then first ++ last
  else
    let separator := "," ++ l.newline (level + 1)
    first ++ l.newline (level + 1) ++ separator.intercalate parts ++ l.newline level ++ last

mutual

def Value.print (l : Layout) (level : Nat) : Value → String
  | .null => "null"
  | .bool b => if b then "true" else "false"
  | .number text => text
  | .string content => contentText content
  | .array elements => l.enclose level "[" "]" (printElements l (level + 1) elements)
  | .object fields => l.enclose level "\x7b" "\x7d" (printFields l (level + 1) fields)

def printElements (l : Layout) (level : Nat) : List Value → List String
  | [] => []
  | v :: rest => v.print l level :: printElements l level rest

def printFields (l : Layout) (level : Nat) : List (Content × Value) → List String
  | [] => []
  | (key, v) :: rest =>
    (contentText key ++ l.colon ++ v.print l level) :: printFields l level rest

end

end PropSchema.Json
