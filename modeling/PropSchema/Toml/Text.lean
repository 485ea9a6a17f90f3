namespace PropSchema.Toml

def isSpace (c : Char) : Bool := c == ' ' || c == '\t'

def skipSpaces (chars : List Char) : List Char := chars.dropWhile isSpace

def isPlain (c : Char) : Bool := c == '\t' || (0x20 ≤ c.toNat && c.toNat != 0x7F)

def lineEnd? : List Char → Option (List Char)
  | [] => some []
  | '\n' :: rest => some rest
  | '\r' :: '\n' :: rest => some rest
  | _ => none

def comment? : List Char → Option (List Char)
  | '#' :: rest =>
    let after := rest.dropWhile isPlain
    if (lineEnd? after).isSome then some after else none
  | chars => some chars

def restOfLine? (chars : List Char) : Option (List Char) := comment? (skipSpaces chars) >>= lineEnd?

def skipTriviaFrom (inComment : Bool) : List Char → Option (List Char)
  | [] => some []
  | '\n' :: rest => skipTriviaFrom false rest
  | '\r' :: '\n' :: rest => skipTriviaFrom false rest
  | c :: rest =>
    if inComment then (if isPlain c then skipTriviaFrom true rest else none)
    else if isSpace c then skipTriviaFrom false rest
    else if c == '#' then skipTriviaFrom true rest
    else some (c :: rest)

def skipTrivia? : List Char → Option (List Char) := skipTriviaFrom false

def hexDigit? (c : Char) : Option Nat :=
  if '0' ≤ c ∧ c ≤ '9' then some (c.toNat - '0'.toNat)
  else if 'a' ≤ c ∧ c ≤ 'f' then some (c.toNat - 'a'.toNat + 10)
  else if 'A' ≤ c ∧ c ≤ 'F' then some (c.toNat - 'A'.toNat + 10)
  else none

def codePoint? (digits : List Char) : Option Char := do
  let n ← digits.foldlM (fun n c => (hexDigit? c).map (16 * n + ·)) 0
  if n.isValidChar then some (Char.ofNat n) else none

def escape? : Char → Option Char
  | 'b' => some '\x08'
  | 't' => some '\t'
  | 'n' => some '\n'
  | 'f' => some '\x0c'
  | 'r' => some '\r'
  | 'e' => some '\x1b'
  | '"' => some '"'
  | '\\' => some '\\'
  | _ => none

def push (c : Char) (text : Option (List Char × List Char)) : Option (List Char × List Char) :=
  text.map fun (body, after) => (c :: body, after)

def basic? : List Char → Option (List Char × List Char)
  | [] => none
  | '"' :: rest => some ([], rest)
  | '\\' :: 'x' :: a :: b :: rest => codePoint? [a, b] >>= (push · (basic? rest))
  | '\\' :: 'u' :: a :: b :: c :: d :: rest => codePoint? [a, b, c, d] >>= (push · (basic? rest))
  | '\\' :: 'U' :: a :: b :: c :: d :: e :: f :: g :: h :: rest =>
    codePoint? [a, b, c, d, e, f, g, h] >>= (push · (basic? rest))
  | '\\' :: c :: rest => escape? c >>= (push · (basic? rest))
  | c :: rest => if isPlain c && c != '\\' then push c (basic? rest) else none

def literal? : List Char → Option (List Char × List Char)
  | [] => none
  | '\x27' :: rest => some ([], rest)
  | c :: rest => if isPlain c then push c (literal? rest) else none

def endsLine (chars : List Char) : Bool :=
  match skipSpaces chars with
  | '\n' :: _ => true
  | '\r' :: '\n' :: _ => true
  | _ => false

/-- A text on several lines, after its opening quotes. Two quotes may stand before the closing ones.
A backslash at the end of a line takes away all blanks and line ends up to the next character; while
that lasts, `trimming` is set. -/
def multiline? (trimming : Bool) : List Char → Option (List Char × List Char)
  | [] => none
  | '"' :: '"' :: '"' :: '"' :: '"' :: rest => some (['"', '"'], rest)
  | '"' :: '"' :: '"' :: '"' :: rest => some (['"'], rest)
  | '"' :: '"' :: '"' :: rest => some ([], rest)
  | '\r' :: '\n' :: rest =>
    if trimming then multiline? true rest else push '\r' (push '\n' (multiline? false rest))
  | '\\' :: 'x' :: a :: b :: rest => codePoint? [a, b] >>= (push · (multiline? false rest))
  | '\\' :: 'u' :: a :: b :: c :: d :: rest =>
    codePoint? [a, b, c, d] >>= (push · (multiline? false rest))
  | '\\' :: 'U' :: a :: b :: c :: d :: e :: f :: g :: h :: rest =>
    codePoint? [a, b, c, d, e, f, g, h] >>= (push · (multiline? false rest))
  | '\\' :: c :: rest =>
    if endsLine (c :: rest) then multiline? true (c :: rest)
    else escape? c >>= (push · (multiline? false rest))
  | c :: rest =>
    if trimming && (isSpace c || c == '\n') then multiline? true rest
    else if c == '\n' || (isPlain c && c != '\\') then push c (multiline? false rest)
    else none

def multilineLiteral? : List Char → Option (List Char × List Char)
  | [] => none
  | '\x27' :: '\x27' :: '\x27' :: '\x27' :: '\x27' :: rest => some (['\x27', '\x27'], rest)
  | '\x27' :: '\x27' :: '\x27' :: '\x27' :: rest => some (['\x27'], rest)
  | '\x27' :: '\x27' :: '\x27' :: rest => some ([], rest)
  | '\r' :: '\n' :: rest => push '\r' (push '\n' (multilineLiteral? rest))
  | c :: rest => if c == '\n' || isPlain c then push c (multilineLiteral? rest) else none

def dropFirstLineEnd : List Char → List Char
  | '\n' :: rest => rest
  | '\r' :: '\n' :: rest => rest
  | chars => chars

def text? : List Char → Option (List Char × List Char)
  | '"' :: '"' :: '"' :: rest => multiline? false (dropFirstLineEnd rest)
  | '"' :: rest => basic? rest
  | '\x27' :: '\x27' :: '\x27' :: rest => multilineLiteral? (dropFirstLineEnd rest)
  | '\x27' :: rest => literal? rest
  | _ => none

def isBareKey (c : Char) : Bool := c.isAlphanum || c == '_' || c == '-'

def simpleKey? : List Char → Option (String × List Char)
  | '"' :: rest => (basic? rest).map fun (key, after) => (String.ofList key, after)
  | '\x27' :: rest => (literal? rest).map fun (key, after) => (String.ofList key, after)
  | chars =>
    match chars.takeWhile isBareKey with
    | [] => none
    | key => some (String.ofList key, chars.dropWhile isBareKey)

def keyLimit : Nat := 80

def keyAt : Nat → List Char → Option (List String × List Char)
  | 0, _ => none
  | limit + 1, chars => do
    let (first, rest) ← simpleKey? (skipSpaces chars)
    match skipSpaces rest with
    | '.' :: rest =>
      let (others, after) ← keyAt limit rest
      return (first :: others, after)
    | after => return ([first], after)

def key? (chars : List Char) : Option (List String × List Char) := keyAt keyLimit chars

end PropSchema.Toml
