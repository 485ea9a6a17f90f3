import PropSchema.Json.Token

namespace PropSchema.Json

inductive Value
  | null
  | bool (value : Bool)
  | number (text : String)
  | string (content : Content)
  | array (elements : List Value)
  | object (fields : List (Content × Value))
  deriving Repr

/-- An open container: what it holds so far, the last first, and for an object the key whose value
is being read. -/
inductive Frame
  | array (done : List Value)
  | object (done : List (Content × Value)) (key : Content)
  deriving Repr

inductive Expectation
  | value
  | elementOrEnd
  | keyOrEnd
  | key (done : List (Content × Value))
  | colon (done : List (Content × Value)) (key : Content)
  | afterValue (value : Value)
  deriving Repr

structure Reader where
  expects : Expectation
  stack : List Frame
  deriving Repr

namespace Reader

def start : Reader := ⟨.value, []⟩

def takeValue (stack : List Frame) : Token → Option Reader
  | .null => some ⟨.afterValue .null, stack⟩
  | .bool b => some ⟨.afterValue (.bool b), stack⟩
  | .number text => some ⟨.afterValue (.number text), stack⟩
  | .string content => some ⟨.afterValue (.string content), stack⟩
  | .openBracket => some ⟨.elementOrEnd, stack⟩
  | .openBrace => some ⟨.keyOrEnd, stack⟩
  | _ => none

def step (r : Reader) (token : Token) : Option Reader :=
  match r.expects, token, r.stack with
  | .value, token, stack => takeValue stack token
  | .elementOrEnd, .closeBracket, stack => some ⟨.afterValue (.array []), stack⟩
  | .elementOrEnd, token, stack => takeValue (.array [] :: stack) token
  | .keyOrEnd, .closeBrace, stack => some ⟨.afterValue (.object []), stack⟩
  | .keyOrEnd, .string key, stack => some ⟨.colon [] key, stack⟩
  | .key done, .string key, stack => some ⟨.colon done key, stack⟩
  | .colon done key, .colon, stack => some ⟨.value, .object done key :: stack⟩
  | .afterValue v, .comma, .array done :: stack => some ⟨.value, .array (v :: done) :: stack⟩
  | .afterValue v, .closeBracket, .array done :: stack =>
    some ⟨.afterValue (.array (v :: done).reverse), stack⟩
  | .afterValue v, .comma, .object done key :: stack => some ⟨.key ((key, v) :: done), stack⟩
  | .afterValue v, .closeBrace, .object done key :: stack =>
    some ⟨.afterValue (.object ((key, v) :: done).reverse), stack⟩
  | _, _, _ => none

def finish? : Reader → Option Value
  | ⟨.afterValue v, []⟩ => some v
  | _ => none

end Reader

def ofTokens? (tokens : List Token) : Option Value :=
  tokens.foldlM Reader.step Reader.start >>= Reader.finish?

def parse? (text : String) : Option Value := tokens? text.toList >>= ofTokens?

end PropSchema.Json
