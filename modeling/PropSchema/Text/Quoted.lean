namespace PropSchema.Text

def isQuote (c : Char) : Bool := c == '"' || c == '\x27' || c == '\x60'

def unquote (text : String) : String :=
  match text.toList with
  | quote :: rest =>
    if isQuote quote && rest.getLast? == some quote then String.ofList rest.dropLast else text
  | [] => text

theorem unquote_quoted (body : List Char) {quote : Char} (h : isQuote quote = true) :
    unquote (String.ofList (quote :: (body ++ [quote]))) = String.ofList body := by
  simp [unquote, h]

end PropSchema.Text
