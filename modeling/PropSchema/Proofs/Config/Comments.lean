import Mathlib.Data.List.TakeWhile
import Mathlib.Order.Minimal
import PropSchema.Proofs.Config.Commented

namespace PropSchema.Commented

open Json

inductive Part
  | char (c : Char)
  | literal (body : List Char)
  | comment (chars : List Char)

namespace Part

def chars : Part → List Char
  | .char c => [c]
  | .literal body => '"' :: body
  | .comment chars => chars

def isLiteral : Part → Bool
  | .literal _ => true
  | _ => false

def isComment : Part → Bool
  | .comment _ => true
  | _ => false

end Part

/-- A stretch of a text ends at the first place where it is closed, or with the text if there is no
such place. -/
inductive Stretch (closes : List Char → Prop) : List Char → List Char → Prop
  | closed {body rest} : closes body → (∀ lead, lead <+: body → closes lead → lead = body) →
    Stretch closes body rest
  | unclosed {body} : (∀ lead, lead <+: body → ¬ closes lead) → Stretch closes body []

def EndsBlock (chars : List Char) : Prop := ['*', '/'] <:+ chars

inductive InCommented : Part → List Char → Prop
  | char {c rest} : c ≠ '"' → (c = '/' → ∀ d ∈ rest.head?, d ≠ '/' ∧ d ≠ '*') →
    InCommented (.char c) rest
  | literal {body rest} : Stretch Quoted body rest → InCommented (.literal body) rest
  | line {body rest} : '\n' ∉ body → (∀ d ∈ rest.head?, d = '\n') →
    InCommented (.comment ('/' :: '/' :: body)) rest
  | block {body rest} : Stretch EndsBlock body rest →
    InCommented (.comment ('/' :: '*' :: body)) rest

inductive InPlain : Part → List Char → Prop
  | char {c rest} : c ≠ '"' → InPlain (.char c) rest
  | literal {body rest} : Stretch Quoted body rest → InPlain (.literal body) rest

inductive ReadAs (fits : Part → List Char → Prop) : List Part → List Char → Prop
  | nil : ReadAs fits [] []
  | cons {p ps rest} : fits p rest → ReadAs fits ps rest → ReadAs fits (p :: ps) (p.chars ++ rest)

structure Deterministic (fits : Part → List Char → Prop) : Prop where
  ne_nil {p rest} : fits p rest → p.chars ≠ []
  unique {p p' rest rest'} : fits p rest → fits p' rest' → p.chars ++ rest = p'.chars ++ rest' →
    p = p' ∧ rest = rest'

section Stretch

variable {closes : List Char → Prop} {body body' rest rest' : List Char}

theorem exists_stretch (closes : List Char → Prop) (text : List Char) :
    ∃ body rest, text = body ++ rest ∧ Stretch closes body rest := by
  by_cases h : ∃ lead, lead <+: text ∧ closes lead
  · -- Of all the places where the stretch is closed the first one counts.
    obtain ⟨lead, ⟨⟨rest, rfl⟩, hcloses⟩, hshortest⟩ :=
      exists_minimalFor_of_wellFoundedLT (fun lead => lead <+: text ∧ closes lead) List.length h
    refine ⟨lead, rest, rfl, .closed hcloses fun lead' hlead hcloses' => ?_⟩
    exact hlead.eq_of_length_le
      (hshortest ⟨hlead.trans (List.prefix_append lead rest), hcloses'⟩ hlead.length_le)
  · refine ⟨text, [], (List.append_nil text).symm, .unclosed fun lead hlead hcloses => ?_⟩
    exact h ⟨lead, hlead, hcloses⟩

theorem Stretch.unique (h : Stretch closes body rest) (h' : Stretch closes body' rest')
    (heq : body ++ rest = body' ++ rest') : body = body' ∧ rest = rest' := by
  have hbody : body = body' := by
    have hlead : body <+: body' ++ rest' := ⟨rest, heq⟩
    have hlead' : body' <+: body ++ rest := ⟨rest', heq.symm⟩
    cases h with
    | closed hcloses hfirst =>
      cases h' with
      | closed hcloses' hfirst' =>
        obtain hle | hle := List.prefix_or_prefix_of_prefix hlead (List.prefix_append body' rest')
        · exact hfirst' body hle hcloses
        · exact (hfirst body' hle hcloses').symm
      | unclosed hnone => exact absurd hcloses (hnone body (by simpa using hlead))
    | unclosed hnone =>
      cases h' with
      | closed hcloses' _ => exact absurd hcloses' (hnone body' (by simpa using hlead'))
      | unclosed _ => simpa using heq
  subst hbody
  exact ⟨rfl, List.append_cancel_left heq⟩

end Stretch

section Readings

variable {fits : Part → List Char → Prop} {parts parts' : List Part} {text : List Char}

theorem ReadAs.flatMap_chars (h : ReadAs fits parts text) : parts.flatMap Part.chars = text := by
  induction h with
  | nil => rfl
  | cons _ _ ih => rw [List.flatMap_cons, ih]

theorem Deterministic.eq_of_readAs (hfits : Deterministic fits) (h : ReadAs fits parts text)
    (h' : ReadAs fits parts' text) : parts = parts' := by
  induction h generalizing parts' with
  | nil =>
    generalize htext : [] = text at h'
    cases h' with
    | nil => rfl
    | cons hp _ => exact absurd (List.append_eq_nil_iff.1 htext.symm).1 (hfits.ne_nil hp)
  | @cons p ps rest hp _ ih =>
    generalize htext : p.chars ++ rest = text at h'
    cases h' with
    | nil => exact absurd (List.append_eq_nil_iff.1 htext).1 (hfits.ne_nil hp)
    | cons hp' hrest' =>
      obtain ⟨rfl, rfl⟩ := hfits.unique hp hp' htext
      rw [ih hrest']

theorem Deterministic.readAs_iff (hfits : Deterministic fits) (h : ReadAs fits parts text)
    (ps : List Part) : ReadAs fits ps text ↔ ps = parts :=
  ⟨fun h' => hfits.eq_of_readAs h' h, fun heq => heq ▸ h⟩

theorem deterministic_inPlain : Deterministic InPlain where
  ne_nil h := by cases h <;> simp [Part.chars]
  unique h h' heq := by
    cases h with
    | char hquote =>
      cases h' with
      | char _ => simpa [Part.chars] using heq
      | literal _ => exact absurd (List.cons.inj heq).1 hquote
    | literal hbody =>
      cases h' with
      | char hquote => exact absurd (List.cons.inj heq).1.symm hquote
      | literal hbody' =>
        obtain ⟨rfl, rfl⟩ := hbody.unique hbody' (List.cons.inj heq).2
        exact ⟨rfl, rfl⟩

end Readings

section Lines

variable {body body' rest rest' : List Char}

theorem takeWhile_line (h : '\n' ∉ body) (hrest : ∀ d ∈ rest.head?, d = '\n') :
    (body ++ rest).takeWhile (· != '\n') = body := by
  have hbody : ∀ c ∈ body, (c != '\n') = true := fun c hc => by
    simpa using fun heq : c = '\n' => h (heq ▸ hc)
  rw [List.takeWhile_append_of_pos hbody]
  cases rest with
  | nil => simp
  | cons d rest => simp [hrest d rfl]

theorem eq_of_line_append_eq (h : '\n' ∉ body) (hrest : ∀ d ∈ rest.head?, d = '\n')
    (h' : '\n' ∉ body') (hrest' : ∀ d ∈ rest'.head?, d = '\n')
    (heq : body ++ rest = body' ++ rest') : body = body' ∧ rest = rest' := by
  obtain rfl : body = body' := by
    rw [← takeWhile_line h hrest, heq, takeWhile_line h' hrest']
  exact ⟨rfl, List.append_cancel_left heq⟩

theorem exists_line (text : List Char) :
    ∃ body rest, text = body ++ rest ∧ '\n' ∉ body ∧ ∀ d ∈ rest.head?, d = '\n' := by
  refine ⟨text.takeWhile (· != '\n'), text.dropWhile (· != '\n'),
    List.takeWhile_append_dropWhile.symm, fun h => ?_, fun d hd => ?_⟩
  · simpa using List.mem_takeWhile_imp h
  · have hstop := List.head?_dropWhile_not (· != '\n') text
    rw [Option.mem_def.1 hd] at hstop
    simpa using hstop

end Lines

theorem deterministic_inCommented : Deterministic InCommented where
  ne_nil h := by cases h <;> simp [Part.chars]
  unique h h' heq := by
    cases h with
    | char hquote hslash =>
      cases h' with
      | char _ _ => simpa [Part.chars] using heq
      | literal _ => exact absurd (List.cons.inj heq).1 hquote
      | line _ _ =>
        obtain ⟨rfl, rfl⟩ := List.cons.inj heq
        exact absurd rfl (hslash rfl '/' rfl).1
      | block _ =>
        obtain ⟨rfl, rfl⟩ := List.cons.inj heq
        exact absurd rfl (hslash rfl '*' rfl).2
    | literal hbody =>
      cases h' with
      | char hquote _ => exact absurd (List.cons.inj heq).1.symm hquote
      | literal hbody' =>
        obtain ⟨rfl, rfl⟩ := hbody.unique hbody' (List.cons.inj heq).2
        exact ⟨rfl, rfl⟩
      | line _ _ | block _ => cases heq
    | line hbody hrest =>
      cases h' with
      | char _ hslash =>
        obtain ⟨rfl, rfl⟩ := List.cons.inj heq
        exact absurd rfl (hslash rfl '/' rfl).1
      | literal _ | block _ => cases heq
      | line hbody' hrest' =>
        obtain ⟨rfl, rfl⟩ := eq_of_line_append_eq hbody hrest hbody' hrest'
          (List.cons.inj (List.cons.inj heq).2).2
        exact ⟨rfl, rfl⟩
    | block hbody =>
      cases h' with
      | char _ hslash =>
        obtain ⟨rfl, rfl⟩ := List.cons.inj heq
        exact absurd rfl (hslash rfl '*' rfl).2
      | literal _ | line _ _ => cases heq
      | block hbody' =>
        obtain ⟨rfl, rfl⟩ := hbody.unique hbody' (List.cons.inj (List.cons.inj heq).2).2
        exact ⟨rfl, rfl⟩

theorem exists_part (c : Char) (text : List Char) :
    ∃ p rest, c :: text = p.chars ++ rest ∧ InCommented p rest := by
  by_cases hquote : c = '"'
  · obtain ⟨body, rest, rfl, hbody⟩ := exists_stretch Quoted text
    exact ⟨.literal body, rest, by rw [hquote]; rfl, .literal hbody⟩
  by_cases hopens : c = '/' ∧ (text.head? = some '/' ∨ text.head? = some '*')
  · obtain ⟨rfl, hline | hblock⟩ := hopens
    · obtain ⟨text, rfl⟩ := List.head?_eq_some_iff.1 hline
      obtain ⟨body, rest, rfl, hbody, hrest⟩ := exists_line text
      exact ⟨_, rest, rfl, .line hbody hrest⟩
    · obtain ⟨text, rfl⟩ := List.head?_eq_some_iff.1 hblock
      obtain ⟨body, rest, rfl, hbody⟩ := exists_stretch EndsBlock text
      exact ⟨_, rest, rfl, .block hbody⟩
  · refine ⟨.char c, text, rfl, .char hquote fun hslash d hd => ⟨?_, ?_⟩⟩
    · rintro rfl
      exact hopens ⟨hslash, .inl hd⟩
    · rintro rfl
      exact hopens ⟨hslash, .inr hd⟩

theorem exists_readAs (text : List Char) : ∃ parts, ReadAs InCommented parts text := by
  -- On the length, since strings and comments take any number of characters.
  induction hlength : text.length using Nat.strong_induction_on generalizing text with
  | _ n ih =>
    cases text with
    | nil => exact ⟨[], .nil⟩
    | cons c text =>
      obtain ⟨p, rest, heq, hp⟩ := exists_part c text
      have hpos := List.length_pos_iff.2 (deterministic_inCommented.ne_nil hp)
      have hshorter : rest.length < n := by
        rw [← hlength, heq, List.length_append]
        omega
      obtain ⟨parts, hparts⟩ := ih rest.length hshorter rest rfl
      exact ⟨p :: parts, heq ▸ .cons hp hparts⟩

section Stripping

variable {p : Part} {body rest : List Char}

theorem stripComments_slash (h : ∀ d ∈ rest.head?, d ≠ '/' ∧ d ≠ '*') :
    stripComments ('/' :: rest) = '/' :: stripComments rest := by
  rw [stripComments.eq_def]
  split
  next heq => cases heq
  next heq => cases heq
  next heq =>
    cases heq
    exact absurd rfl (h '/' rfl).1
  next heq =>
    cases heq
    exact absurd rfl (h '*' rfl).2
  next heq => cases heq; rfl

theorem stripAfterQuote_of_unclosed (h : ∀ lead, lead <+: body → ¬ Quoted lead) :
    stripAfterQuote body = body := by
  -- On the length, since an escape takes two characters.
  induction hlength : body.length using Nat.strong_induction_on generalizing body with
  | _ n ih =>
    cases body with
    | nil => rfl
    | cons c body =>
      rw [List.length_cons] at hlength
      by_cases hquote : c = '"'
      · subst hquote
        exact absurd .close (h ['"'] (List.prefix_append ['"'] body))
      by_cases hslash : c = '\\'
      · subst hslash
        cases body with
        | nil => rfl
        | cons d body =>
          rw [List.length_cons] at hlength
          have hbody : ∀ lead, lead <+: body → ¬ Quoted lead := fun lead hlead hquoted =>
            h ('\\' :: d :: lead) (by simpa using hlead) (.escape hquoted)
          rw [stripAfterQuote, ih body.length (by omega) hbody rfl]
      · have hbody : ∀ lead, lead <+: body → ¬ Quoted lead := fun lead hlead hquoted =>
          h (c :: lead) (by simpa using hlead) (.char hquote hslash hquoted)
        rw [stripAfterQuote_char hquote hslash, ih body.length (by omega) hbody rfl]

theorem skipLine_of_not_mem (h : '\n' ∉ body) : skipLine body = [] := by
  induction body with
  | nil => rfl
  | cons c body ih =>
    obtain ⟨hc, hbody⟩ := not_or.1 (List.mem_cons.not.1 h)
    rw [skipLine.eq_def]
    split
    next => rfl
    next heq => exact absurd (List.cons.inj heq).1.symm hc
    next heq => cases heq; exact ih hbody

theorem skipBlock_of_not_infix (h : ¬ ['*', '/'] <:+: body) : skipBlock body = [] := by
  induction body with
  | nil => rfl
  | cons c body ih =>
    rw [skipBlock.eq_def]
    split
    next => rfl
    next heq =>
      rw [heq] at h
      exact absurd ⟨[], _, rfl⟩ h
    next heq => cases heq; exact ih fun hinfix => h (List.infix_cons hinfix)

theorem Stretch.stripAfterQuote_eq (h : Stretch Quoted body rest) :
    stripAfterQuote (body ++ rest) = body ++ stripComments rest := by
  cases h with
  | closed hquoted _ => exact (stripAfterQuote_append hquoted rest).1
  | unclosed hnone =>
    rw [List.append_nil, stripAfterQuote_of_unclosed hnone, stripComments, List.append_nil]

theorem skipLine_eq (h : '\n' ∉ body) (hrest : ∀ d ∈ rest.head?, d = '\n') :
    skipLine (body ++ rest) = stripComments rest := by
  cases rest with
  | nil => rw [List.append_nil, skipLine_of_not_mem h, stripComments]
  | cons d rest =>
    obtain rfl := hrest d rfl
    rw [skipLine_append h, stripComments_char (by decide) (by decide)]

theorem Stretch.skipBlock_eq (h : Stretch EndsBlock body rest) :
    skipBlock (body ++ rest) = stripComments rest := by
  cases h with
  | closed hends hfirst =>
    obtain ⟨inner, rfl⟩ := hends
    have hinner : ¬ ['*', '/'] <:+: inner := by
      rintro ⟨before, after, rfl⟩
      have hshort := hfirst (before ++ ['*', '/']) ⟨after ++ ['*', '/'], by simp⟩ ⟨before, rfl⟩
      simpa using congrArg List.length hshort
    rw [List.append_assoc]
    exact skipBlock_append hinner rest
  | unclosed hnone =>
    have hbody : ¬ ['*', '/'] <:+: body := by
      rintro ⟨before, after, rfl⟩
      exact hnone (before ++ ['*', '/']) (List.prefix_append _ after) ⟨before, rfl⟩
    rw [List.append_nil, skipBlock_of_not_infix hbody, stripComments]

theorem stripComments_part (h : InCommented p rest) :
    stripComments (p.chars ++ rest) =
      (if p.isComment then [] else p.chars) ++ stripComments rest := by
  cases h with
  | @char c rest hquote hslash =>
    by_cases hc : c = '/'
    · subst hc
      exact stripComments_slash (hslash rfl)
    · exact stripComments_char hquote hc rest
  | literal hbody =>
    rw [Part.chars, List.cons_append, stripComments, hbody.stripAfterQuote_eq]
    rfl
  | line hbody hrest =>
    rw [Part.chars, List.cons_append, List.cons_append, stripComments, skipLine_eq hbody hrest]
    rfl
  | block hbody =>
    rw [Part.chars, List.cons_append, List.cons_append, stripComments, hbody.skipBlock_eq]
    rfl

theorem head?_stripComments (h : ∀ d ∈ rest.head?, d ≠ '/') :
    (stripComments rest).head? = rest.head? := by
  cases rest with
  | nil => rfl
  | cons d rest =>
    by_cases hquote : d = '"'
    · rw [hquote, stripComments]
      rfl
    · rw [stripComments_char hquote (h d rfl)]
      rfl

theorem InCommented.kept (h : InCommented p rest) (hkept : p.isComment = false) :
    InCommented p (stripComments rest) := by
  cases h with
  | char hquote hslash =>
    -- No comment follows a slash directly, so the next character is still the same.
    refine .char hquote fun hc => ?_
    rw [head?_stripComments fun d hd => (hslash hc d hd).1]
    exact hslash hc
  | literal hbody =>
    cases hbody with
    | closed hquoted hfirst => exact .literal (.closed hquoted hfirst)
    | unclosed hnone => exact .literal (.unclosed hnone)
  | line _ _ | block _ => cases hkept

end Stripping

def uncommented (parts : List Part) : List Part := parts.filter (!·.isComment)

def literals (parts : List Part) : List (List Char) := (parts.filter (·.isLiteral)).map Part.chars

section Results

variable {parts : List Part} {text : List Char}

theorem readAs_uncommented (h : ReadAs InCommented parts text) :
    ReadAs InCommented (uncommented parts) (stripComments text) := by
  induction h with
  | nil => exact .nil
  | @cons p ps rest hp _ ih =>
    rw [stripComments_part hp]
    cases hcomment : p.isComment with
    | true => simpa [uncommented, hcomment] using ih
    | false => simpa [uncommented, hcomment] using ReadAs.cons (hp.kept hcomment) ih

theorem uncommented_uncommented (parts : List Part) :
    uncommented (uncommented parts) = uncommented parts := by
  rw [uncommented, uncommented, List.filter_filter]
  simp

theorem literals_uncommented (parts : List Part) :
    literals (uncommented parts) = literals parts := by
  have hliteral : ∀ p : Part, (p.isLiteral && !p.isComment) = p.isLiteral := fun p => by
    cases p <;> rfl
  rw [literals, uncommented, List.filter_filter]
  simp only [hliteral, literals]

theorem ReadAs.not_mark_infix (h : ReadAs InCommented parts text) {mark : Char}
    (hmark : mark = '/' ∨ mark = '*') : ¬ [.char '/', .char mark] <:+: parts := by
  induction h with
  | nil => simp
  | @cons p ps rest hp hps ih =>
    rw [List.infix_cons_iff, not_or]
    refine ⟨?_, ih⟩
    rintro ⟨more, heq⟩
    obtain ⟨rfl, rfl⟩ := List.cons.inj heq
    cases hps
    cases hp with
    | char _ hslash =>
      obtain ⟨hne, hne'⟩ := hslash rfl mark rfl
      exact hmark.elim hne hne'

theorem ReadAs.plain (h : ReadAs InCommented parts text)
    (hnone : ∀ p ∈ parts, p.isComment = false) : ReadAs InPlain parts text := by
  induction h with
  | nil => exact .nil
  | cons hp _ ih =>
    obtain ⟨hcomment, hnone⟩ := List.forall_mem_cons.1 hnone
    refine .cons ?_ (ih hnone)
    cases hp with
    | char hquote _ => exact .char hquote
    | literal hbody => exact .literal hbody
    | line _ _ | block _ => cases hcomment

/-- A text has one reading as commented JSON, and what is left of it has one reading as plain JSON:
the same parts without the comments. So no mark of a comment is left outside strings, the strings
are those that were outside comments, the last one even if nothing closes it, and taking comments
away once more changes nothing. -/
theorem comments_stripped (text : List Char) :
    stripComments (stripComments text) = stripComments text ∧
      ∃ parts, (∀ ps, ReadAs InCommented ps text ↔ ps = parts) ∧
        (∀ ps, ReadAs InPlain ps (stripComments text) ↔ ps = uncommented parts) ∧
        (∀ mark, mark = '/' ∨ mark = '*' → ¬ [.char '/', .char mark] <:+: uncommented parts) ∧
        literals (uncommented parts) = literals parts := by
  obtain ⟨parts, hparts⟩ := exists_readAs text
  have hkept := readAs_uncommented hparts
  have hplain : ReadAs InPlain (uncommented parts) (stripComments text) :=
    hkept.plain fun p hp => by simpa using (List.mem_filter.1 hp).2
  refine ⟨?_, parts, deterministic_inCommented.readAs_iff hparts,
    deterministic_inPlain.readAs_iff hplain, fun _ => hkept.not_mark_infix,
    literals_uncommented parts⟩
  rw [← (readAs_uncommented hkept).flatMap_chars, uncommented_uncommented, hkept.flatMap_chars]

-- A quote in a comment, marks in a string, a slash before a string, and a last string that is open.
example : stripComments "/*\"*/a/\"//\\\"/**/\"/b//\"\n\"/*\\".toList =
    "a/\"//\\\"/**/\"/b\n\"/*\\".toList := by
  rfl

end Results

end PropSchema.Commented
