import PropSchema.Text.Blank

namespace PropSchema.Commented

mutual

def stripComments : List Char → List Char
  | [] => []
  | '"' :: rest => '"' :: stripAfterQuote rest
  | '/' :: '/' :: rest => skipLine rest
  | '/' :: '*' :: rest => skipBlock rest
  | c :: rest => c :: stripComments rest

def stripAfterQuote : List Char → List Char
  | [] => []
  | '\\' :: c :: rest => '\\' :: c :: stripAfterQuote rest
  | '"' :: rest => '"' :: stripComments rest
  | c :: rest => c :: stripAfterQuote rest

def skipLine : List Char → List Char
  | [] => []
  | '\n' :: rest => '\n' :: stripComments rest
  | _ :: rest => skipLine rest

def skipBlock : List Char → List Char
  | [] => []
  | '*' :: '/' :: rest => stripComments rest
  | _ :: rest => skipBlock rest

end

def closesNext (chars : List Char) : Bool :=
  match (chars.dropWhile Text.isBlank).head? with
  | some c => c == '\x7d' || c == ']'
  | none => false

mutual

def stripCommas : List Char → List Char
  | [] => []
  | '"' :: rest => '"' :: stripCommasAfterQuote rest
  | ',' :: rest => if closesNext rest then stripCommas rest else ',' :: stripCommas rest
  | c :: rest => c :: stripCommas rest

def stripCommasAfterQuote : List Char → List Char
  | [] => []
  | '\\' :: c :: rest => '\\' :: c :: stripCommasAfterQuote rest
  | '"' :: rest => '"' :: stripCommas rest
  | c :: rest => c :: stripCommasAfterQuote rest

end

def plain (text : String) : String := String.ofList (stripCommas (stripComments text.toList))

end PropSchema.Commented
