import PropSchema.Config.Tsconfig
import PropSchema.Proofs.Json.Lexeme

/-!
Comments and trailing commas mean nothing. Taking comments away leaves the lexemes of a text with
blanks between them, whatever the comments and the strings hold; taking trailing commas away leaves
the lexemes without the commas before the end of containers. A JSON value that was decorated in
this way is what it was.
-/

namespace PropSchema.Commented

open Json

inductive Gap : List Char → Prop
  | blank {c} : isSpace c = true → Gap [c]
  | line {body} : '\n' ∉ body → Gap ('/' :: '/' :: (body ++ ['\n']))
  | block {body} : ¬ ['*', '/'] <:+: body → Gap ('/' :: '*' :: (body ++ ['*', '/']))

section Characters

variable {c : Char} {body rest : List Char}

theorem stripComments_char (hquote : c ≠ '"') (hslash : c ≠ '/') (rest : List Char) :
    stripComments (c :: rest) = c :: stripComments rest := by
  rw [stripComments.eq_def]
  split
  next heq => cases heq
  next heq => exact absurd (List.cons.inj heq).1 hquote
  next heq => exact absurd (List.cons.inj heq).1 hslash
  next heq => exact absurd (List.cons.inj heq).1 hslash
  next heq => cases heq; rfl

theorem stripCommas_char (hquote : c ≠ '"') (hcomma : c ≠ ',') (rest : List Char) :
    stripCommas (c :: rest) = c :: stripCommas rest := by
  rw [stripCommas.eq_def]
  split
  next heq => cases heq
  next heq => exact absurd (List.cons.inj heq).1 hquote
  next heq => exact absurd (List.cons.inj heq).1 hcomma
  next heq => cases heq; rfl

theorem stripComments_plain {chars : List Char} (h : ∀ c ∈ chars, c ≠ '"' ∧ c ≠ '/')
    (rest : List Char) : stripComments (chars ++ rest) = chars ++ stripComments rest := by
  induction chars with
  | nil => rfl
  | cons c chars ih =>
    obtain ⟨⟨hquote, hslash⟩, h⟩ := List.forall_mem_cons.1 h
    rw [List.cons_append, stripComments_char hquote hslash, ih h, List.cons_append]

theorem stripCommas_plain {chars : List Char} (h : ∀ c ∈ chars, c ≠ '"' ∧ c ≠ ',')
    (rest : List Char) : stripCommas (chars ++ rest) = chars ++ stripCommas rest := by
  induction chars with
  | nil => rfl
  | cons c chars ih =>
    obtain ⟨⟨hquote, hcomma⟩, h⟩ := List.forall_mem_cons.1 h
    rw [List.cons_append, stripCommas_char hquote hcomma, ih h, List.cons_append]

theorem skipLine_append (h : '\n' ∉ body) (rest : List Char) :
    skipLine (body ++ '\n' :: rest) = '\n' :: stripComments rest := by
  induction body with
  | nil => rfl
  | cons c body ih =>
    obtain ⟨hc, hbody⟩ := not_or.1 (List.mem_cons.not.1 h)
    rw [List.cons_append, skipLine.eq_def]
    split
    next heq => cases heq
    next heq => exact absurd (List.cons.inj heq).1.symm hc
    next heq => cases heq; exact ih hbody

theorem skipBlock_append (h : ¬ ['*', '/'] <:+: body) (rest : List Char) :
    skipBlock (body ++ '*' :: '/' :: rest) = stripComments rest := by
  induction body with
  | nil => rfl
  | cons c body ih =>
    have hbody : ¬ ['*', '/'] <:+: body := fun hinfix => h (List.infix_cons hinfix)
    rw [List.cons_append, skipBlock.eq_def]
    split
    next heq => cases heq
    next heq =>
      obtain ⟨rfl, htail⟩ := List.cons.inj heq
      cases body with
      | nil => cases htail
      | cons d body =>
        obtain ⟨rfl, -⟩ := List.cons.inj htail
        exact absurd ⟨[], body, rfl⟩ h
    next heq => cases heq; exact ih hbody

theorem stripAfterQuote_char (hquote : c ≠ '"') (hslash : c ≠ '\\') (rest : List Char) :
    stripAfterQuote (c :: rest) = c :: stripAfterQuote rest := by
  rw [stripAfterQuote.eq_def]
  split
  next heq => cases heq
  next heq => exact absurd (List.cons.inj heq).1 hslash
  next heq => exact absurd (List.cons.inj heq).1 hquote
  next heq => cases heq; rfl

theorem stripCommasAfterQuote_char (hquote : c ≠ '"') (hslash : c ≠ '\\') (rest : List Char) :
    stripCommasAfterQuote (c :: rest) = c :: stripCommasAfterQuote rest := by
  rw [stripCommasAfterQuote.eq_def]
  split
  next heq => cases heq
  next heq => exact absurd (List.cons.inj heq).1 hslash
  next heq => exact absurd (List.cons.inj heq).1 hquote
  next heq => cases heq; rfl

theorem stripAfterQuote_append (h : Quoted body) (rest : List Char) :
    stripAfterQuote (body ++ rest) = body ++ stripComments rest ∧
      stripCommasAfterQuote (body ++ rest) = body ++ stripCommas rest := by
  induction h with
  | close => exact ⟨rfl, rfl⟩
  | escape _ ih =>
    simp only [List.cons_append, stripAfterQuote, stripCommasAfterQuote, ih, and_self]
  | char hquote hslash _ ih =>
    rw [List.cons_append, stripAfterQuote_char hquote hslash,
      stripCommasAfterQuote_char hquote hslash, ih.1, ih.2]
    exact ⟨rfl, rfl⟩

end Characters

section Lexemes

variable {ls ls' : List Lexeme} {text : List Char}

theorem spelling_cases {token : Token} {lead : List Char} (h : Spelling token lead) :
    (token ≠ .comma ∧ ∃ body, lead = '"' :: body ∧ Quoted body) ∨ (token = .comma ∧ lead = [',']) ∨
      (token ≠ .comma ∧ ∀ c ∈ lead, c ≠ '"' ∧ c ≠ '/' ∧ c ≠ ',') := by
  cases h with
  | mark hmark =>
    cases token with
    | comma => cases hmark; exact .inr (.inl ⟨rfl, rfl⟩)
    | _ => cases hmark <;> exact .inr (.inr ⟨nofun, by simp⟩)
  | word hword =>
    cases token with
    | null => cases hword; exact .inr (.inr ⟨nofun, by simp⟩)
    | bool b => cases b <;> cases hword <;> exact .inr (.inr ⟨nofun, by simp⟩)
    | _ => cases hword
  | number hpart =>
    refine .inr (.inr ⟨nofun, fun c hc => ?_⟩)
    have hnumeric := hpart.numeric c hc
    refine ⟨?_, ?_, ?_⟩ <;> rintro rfl <;> cases hnumeric
  | string hquoted _ => exact .inl ⟨nofun, _, rfl, hquoted⟩

theorem stripComments_lexeme (l : Lexeme) (rest : List Char) :
    stripComments (l.chars ++ rest) = l.chars ++ stripComments rest := by
  obtain ⟨-, body, hchars, hquoted⟩ | ⟨-, hchars⟩ | ⟨-, hplain⟩ := spelling_cases l.spelling
  · rw [hchars, List.cons_append, stripComments, (stripAfterQuote_append hquoted rest).1,
      List.cons_append]
  · rw [hchars]
    exact stripComments_char (by decide) (by decide) rest
  · exact stripComments_plain (fun c hc => ⟨(hplain c hc).1, (hplain c hc).2.1⟩) rest

theorem stripCommas_lexeme {l : Lexeme} (h : l.token ≠ .comma) (rest : List Char) :
    stripCommas (l.chars ++ rest) = l.chars ++ stripCommas rest := by
  obtain ⟨-, body, hchars, hquoted⟩ | ⟨hcomma, -⟩ | ⟨-, hplain⟩ := spelling_cases l.spelling
  · rw [hchars, List.cons_append, stripCommas, (stripAfterQuote_append hquoted rest).2,
      List.cons_append]
  · exact absurd hcomma h
  · exact stripCommas_plain (fun c hc => ⟨(hplain c hc).1, (hplain c hc).2.2⟩) rest

theorem chars_of_comma {l : Lexeme} (h : l.token = .comma) : l.chars = [','] := by
  obtain ⟨hne, -⟩ | ⟨-, hchars⟩ | ⟨hne, -⟩ := spelling_cases l.spelling
  · exact absurd h hne
  · exact hchars
  · exact absurd h hne

theorem ne_of_isSpace {c : Char} (h : isSpace c = true) :
    c ≠ '"' ∧ c ≠ '/' ∧ c ≠ ',' ∧ Text.isBlank c = true := by
  rcases isSpace_cases h with ((rfl | rfl) | rfl) | rfl <;> decide

theorem spelled_stripComments (h : Spelled Gap ls text) :
    Spelled Blank ls (stripComments text) := by
  induction h with
  | nil => exact .nil
  | @fill gap ls text hgap _ ih =>
    cases hgap with
    | @blank c hc =>
      obtain ⟨hquote, hslash, -⟩ := ne_of_isSpace hc
      rw [List.singleton_append, stripComments_char hquote hslash]
      exact .fill ⟨c, hc, rfl⟩ ih
    | line hbody =>
      rw [List.cons_append, List.cons_append, List.append_assoc, stripComments]
      rw [List.singleton_append, skipLine_append hbody]
      exact .fill ⟨'\n', rfl, rfl⟩ ih
    | block hbody =>
      rw [List.cons_append, List.cons_append, List.append_assoc, stripComments]
      exact (skipBlock_append hbody text).symm ▸ ih
  | lexeme l _ ih =>
    rw [stripComments_lexeme]
    exact .lexeme l ih

def dropCommas : List Lexeme → List Lexeme
  | [] => []
  | l :: ls =>
    if l.token = .comma ∧ ls.head?.any (·.token.closes) then dropCommas ls else l :: dropCommas ls

theorem closesNext_of_spelled (h : Spelled Blank ls text) :
    closesNext text = ls.head?.any (·.token.closes) := by
  induction h with
  | nil => rfl
  | fill hgap _ ih =>
    obtain ⟨c, hc, rfl⟩ := hgap
    rw [← ih, closesNext, closesNext, List.singleton_append,
      List.dropWhile_cons_of_pos (ne_of_isSpace hc).2.2.2]
  | lexeme l _ _ =>
    obtain ⟨c, rest, hchars, hblank, hcloses, -⟩ := l.spelling.head
    rw [hchars, List.cons_append, closesNext,
      List.dropWhile_cons_of_neg (Bool.eq_false_iff.1 hblank)]
    exact hcloses

theorem stripCommas_comma {l : Lexeme} (hcomma : l.token = .comma) (h : Spelled Blank ls text) :
    stripCommas (l.chars ++ text) =
      if ls.head?.any (·.token.closes) then stripCommas text else l.chars ++ stripCommas text := by
  rw [chars_of_comma hcomma, List.singleton_append, stripCommas, closesNext_of_spelled h,
    List.singleton_append]

theorem spelled_stripCommas (h : Spelled Blank ls text) :
    Spelled Blank (dropCommas ls) (stripCommas text) := by
  induction h with
  | nil => exact .nil
  | @fill gap ls text hgap _ ih =>
    obtain ⟨c, hc, rfl⟩ := hgap
    obtain ⟨hquote, -, hcomma, -⟩ := ne_of_isSpace hc
    rw [List.singleton_append, stripCommas_char hquote hcomma]
    exact .fill ⟨c, hc, rfl⟩ ih
  | @lexeme ls text l hrest ih =>
    rw [dropCommas]
    by_cases hcomma : l.token = .comma
    · rw [stripCommas_comma hcomma hrest]
      by_cases hcloses : ls.head?.any (·.token.closes) = true
      · rw [if_pos hcloses, if_pos ⟨hcomma, hcloses⟩]
        exact ih
      · rw [if_neg hcloses, if_neg fun h => hcloses h.2]
        exact .lexeme l ih
    · rw [stripCommas_lexeme hcomma, if_neg fun h => hcomma h.1]
      exact .lexeme l ih

theorem stripComments_of_spelled (h : Spelled Blank ls text) : stripComments text = text := by
  induction h with
  | nil => rfl
  | fill hgap _ ih =>
    obtain ⟨c, hc, rfl⟩ := hgap
    obtain ⟨hquote, hslash, -⟩ := ne_of_isSpace hc
    rw [List.singleton_append, stripComments_char hquote hslash, ih]
  | lexeme l _ ih => rw [stripComments_lexeme, ih]

theorem not_closes_of_isChain {l : Lexeme} (h : ((l :: ls).map (·.token)).IsChain Follows)
    (hcomma : l.token = .comma) : ls.head?.any (·.token.closes) = false := by
  cases ls with
  | nil => rfl
  | cons next ls => exact h.rel.comma hcomma

theorem stripCommas_of_spelled (h : Spelled Blank ls text)
    (hchain : (ls.map (·.token)).IsChain Follows) : stripCommas text = text := by
  induction h with
  | nil => rfl
  | fill hgap _ ih =>
    obtain ⟨c, hc, rfl⟩ := hgap
    obtain ⟨hquote, -, hcomma, -⟩ := ne_of_isSpace hc
    rw [List.singleton_append, stripCommas_char hquote hcomma, ih hchain]
  | lexeme l hrest ih =>
    by_cases hcomma : l.token = .comma
    · rw [stripCommas_comma hcomma hrest, not_closes_of_isChain hchain hcomma,
        if_neg Bool.false_ne_true, ih hchain.tail]
    · rw [stripCommas_lexeme hcomma, ih hchain.tail]

end Lexemes

def endsValue : Token → Bool
  | .null | .bool _ | .number _ | .string _ | .closeBrace | .closeBracket => true
  | _ => false

/-- The second list has some commas more than the first one, each after a value and before the end
of the container that the value stands in. -/
inductive AddsCommas : List Lexeme → List Lexeme → Prop
  | nil : AddsCommas [] []
  | keep {ls ls'} (l : Lexeme) : AddsCommas ls ls' → AddsCommas (l :: ls) (l :: ls')
  | add {l close : Lexeme} {ls ls'} (comma : Lexeme) : endsValue l.token = true →
    comma.token = .comma → close.token.closes = true → AddsCommas (close :: ls) ls' →
    AddsCommas (l :: close :: ls) (l :: comma :: ls')

namespace AddsCommas

variable {ls ls' : List Lexeme}

theorem head?_eq (h : AddsCommas ls ls') : ls'.head? = ls.head? := by
  cases h <;> rfl

theorem dropCommas_eq (h : AddsCommas ls ls') (hchain : (ls.map (·.token)).IsChain Follows) :
    dropCommas ls' = ls := by
  induction h with
  | nil => rfl
  | @keep ls ls' l h ih =>
    rw [dropCommas, h.head?_eq, if_neg, ih hchain.tail]
    rintro ⟨hcomma, hcloses⟩
    rw [not_closes_of_isChain hchain hcomma] at hcloses
    cases hcloses
  | @add l close ls ls' comma hvalue hcomma hcloses h ih =>
    have hkeep : ¬ (l.token = .comma ∧ (comma :: ls').head?.any (·.token.closes) = true) := by
      rintro ⟨hl, -⟩
      rw [hl] at hvalue
      cases hvalue
    have hdrop : comma.token = .comma ∧ ls'.head?.any (·.token.closes) = true :=
      ⟨hcomma, by rw [h.head?_eq]; exact hcloses⟩
    rw [dropCommas, if_neg hkeep, dropCommas, if_pos hdrop, ih hchain.tail]

end AddsCommas

def IsPlain (ls : List Lexeme) (text : String) : Prop := Spelled Blank ls text.toList

def IsDecorated (ls : List Lexeme) (text : String) : Prop :=
  ∃ ls', AddsCommas ls ls' ∧ Spelled Gap ls' text.toList

theorem IsDecorated.isPlain {ls : List Lexeme} {text : String} (h : IsDecorated ls text)
    (hchain : (ls.map (·.token)).IsChain Follows) : IsPlain ls (plain text) := by
  obtain ⟨ls', hadds, hspelled⟩ := h
  rw [IsPlain, plain, String.toList_ofList, ← hadds.dropCommas_eq hchain]
  exact spelled_stripCommas (spelled_stripComments hspelled)

theorem IsPlain.parse?_eq {ls : List Lexeme} {text : String} (h : IsPlain ls text)
    (hchain : (ls.map (·.token)).IsChain Follows) :
    Json.parse? text = ofTokens? (ls.map (·.token)) := by
  rw [Json.parse?, tokens?_of_spelled h hchain]
  rfl

theorem IsPlain.strips {ls : List Lexeme} {text : String} (h : IsPlain ls text)
    (hchain : (ls.map (·.token)).IsChain Follows) :
    stripComments text.toList = text.toList ∧ stripCommas text.toList = text.toList :=
  ⟨stripComments_of_spelled h, stripCommas_of_spelled h hchain⟩

theorem exists_isPlain {text : String} {v : Value} (h : Json.parse? text = some v) :
    ∃ ls : List Lexeme, IsPlain ls text ∧ ofTokens? (ls.map (·.token)) = some v := by
  obtain ⟨tokens, htokens, hv⟩ := Option.bind_eq_some_iff.1 h
  obtain ⟨ls, rfl, hspelled⟩ := exists_spelled htokens
  exact ⟨ls, hspelled, hv⟩

/-- Decorating the tokens of a JSON value changes nothing: what the decorated text stands for has
the same lexemes and means the same. A text that is a JSON value already stands for itself. -/
theorem decoration_ignored {ls : List Lexeme} {v : Value}
    (hdoc : ofTokens? (ls.map (·.token)) = some v) :
    (∀ text, IsDecorated ls text → IsPlain ls (plain text) ∧ Json.parse? (plain text) = some v) ∧
      (∀ text bare directory, IsDecorated ls text → IsPlain ls bare →
        CompilerOptions.parse? text directory = CompilerOptions.parse? bare directory) ∧
      ∀ text, (Json.parse? text).isSome →
        stripComments text.toList = text.toList ∧ stripCommas text.toList = text.toList := by
  have hchain := isChain_of_ofTokens? hdoc
  refine ⟨fun text h => ?_, fun text bare directory h hbare => ?_, fun text h => ?_⟩
  · have hplain := h.isPlain hchain
    exact ⟨hplain, (hplain.parse?_eq hchain).trans hdoc⟩
  · have hself : plain bare = bare := by
      obtain ⟨hcomments, hcommas⟩ := hbare.strips hchain
      rw [plain, hcomments, hcommas, String.ofList_toList]
    rw [CompilerOptions.parse?, CompilerOptions.parse?, hself, decode?, decode?,
      (h.isPlain hchain).parse?_eq hchain, hbare.parse?_eq hchain]
  · obtain ⟨w, hw⟩ := Option.isSome_iff_exists.1 h
    obtain ⟨ls, hplain, hdoc⟩ := exists_isPlain hw
    exact hplain.strips (isChain_of_ofTokens? hdoc)

def markedObject : List Lexeme := [
  ⟨['\x7b'], .openBrace, rfl⟩, ⟨['"', 'a', '"'], .string (some "a"), by decide⟩,
  ⟨[':'], .colon, rfl⟩, ⟨['['], .openBracket, rfl⟩, ⟨['1'], .number "1", rfl⟩, ⟨[','], .comma, rfl⟩,
  ⟨['"', '/', '*', '\\', '"', '/', '/', ',', ']', '"'], .string (some "/*\"//,]"), by decide⟩,
  ⟨[']'], .closeBracket, rfl⟩, ⟨['\x7d'], .closeBrace, rfl⟩]

def bareObject : String := "\x7b\"a\":[1,\"/*\\\"//,]\"]\x7d"

def decoratedObject : String := "\x7b\"a\"/**/:[1,// ],\n\"/*\\\"//,]\"/*,***/, ],\x7d"

theorem isPlain_bareObject : IsPlain markedObject bareObject :=
  .lexeme _ (.lexeme _ (.lexeme _ (.lexeme _ (.lexeme _ (.lexeme _ (.lexeme _ (.lexeme _
    (.lexeme _ .nil))))))))

theorem isDecorated_decoratedObject : IsDecorated markedObject decoratedObject := by
  have hcomma : scan? [','] = some (.comma, []) := rfl
  refine ⟨_, .keep _ (.keep _ (.keep _ (.keep _ (.keep _ (.keep _ (.add ⟨_, _, hcomma⟩ rfl rfl rfl
    (.add ⟨_, _, hcomma⟩ rfl rfl rfl (.keep _ .nil)))))))), ?_⟩
  exact .lexeme _ (.lexeme _ (.fill (@Gap.block [] (by decide)) (.lexeme _ (.lexeme _ (.lexeme _
    (.lexeme _ (.fill (@Gap.line [' ', ']', ','] (by decide)) (.lexeme _
      (.fill (@Gap.block [',', '*', '*'] (by decide)) (.lexeme _ (.fill (@Gap.blank ' ' rfl)
        (.lexeme _ (.lexeme _ (.lexeme _ .nil))))))))))))))

theorem decoration_ignored_object :
    IsDecorated markedObject decoratedObject ∧ IsPlain markedObject (plain decoratedObject) ∧
      CompilerOptions.parse? decoratedObject ⟨"/app"⟩ =
        CompilerOptions.parse? bareObject ⟨"/app"⟩ := by
  have hdoc : ofTokens? (markedObject.map (·.token)) =
      some (.object [(some "a", .array [.number "1", .string (some "/*\"//,]")])]) := rfl
  have hall := decoration_ignored hdoc
  exact ⟨isDecorated_decoratedObject, (hall.1 _ isDecorated_decoratedObject).1,
    hall.2.1 _ _ _ isDecorated_decoratedObject isPlain_bareObject⟩

end PropSchema.Commented
