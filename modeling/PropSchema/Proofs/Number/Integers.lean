import Mathlib.Data.List.TakeWhile
import Mathlib.Data.Nat.Digits.Defs
import PropSchema.Number.Literal
import PropSchema.Proofs.Text.Affix

namespace PropSchema

namespace Binary64

theorem roundDiv_one (n : Nat) : roundDiv n 1 = n := by
  simp [roundDiv, Nat.mod_one]

theorem floorLog2_one {n : Nat} (h : n ≠ 0) : floorLog2 n 1 = n.log2 := by
  have hle : 2 ^ n.log2 ≤ n := Nat.log2_self_le h
  have hone : Nat.log2 1 = 0 := by decide
  have hneg : (-(n.log2 : Int)).toNat = 0 := by omega
  have hzero : twoPow 0 = 1 := rfl
  rw [floorLog2, hone, Int.natCast_zero, Int.sub_zero, hneg, hzero, Nat.mul_one, Nat.one_mul,
    Int.toNat_natCast]
  exact if_neg (Nat.not_lt.2 hle)

theorem log2_le {n : Nat} (hn : n < twoPow 53) : n.log2 ≤ 52 := by
  by_cases h : n = 0
  · rw [h]
    decide
  · exact Nat.le_of_lt_succ ((Nat.log2_lt h).2 hn)

theorem ofFraction?_one {n : Nat} (h : n ≠ 0) (hn : n < twoPow 53) :
    ofFraction? n 1 = some ⟨n * twoPow (52 - n.log2), n.log2 - 52⟩ := by
  have hlog := log2_le hn
  have hmax : max leastExponent ((n.log2 : Int) - 52) = n.log2 - 52 := by
    rw [leastExponent]
    omega
  have hneg : (-((n.log2 : Int) - 52)).toNat = 52 - n.log2 := by omega
  have hpos : ((n.log2 : Int) - 52).toNat = 0 := by omega
  have hzero : 1 * twoPow 0 = 1 := rfl
  have hlt : n * twoPow (52 - n.log2) < twoPow 53 := by
    calc n * 2 ^ (52 - n.log2)
      _ < 2 ^ (n.log2 + 1) * 2 ^ (52 - n.log2) :=
        Nat.mul_lt_mul_of_pos_right Nat.lt_log2_self (Nat.two_pow_pos _)
      _ = 2 ^ 53 := by rw [← Nat.pow_add]; congr 1; omega
  simp only [ofFraction?, if_neg h, floorLog2_one h, hmax, hneg, hpos, hzero, roundDiv_one,
    if_neg (Nat.ne_of_lt hlt)]
  rw [if_neg]
  simp only [greatestExponent]
  omega

end Binary64

namespace NumberLiteral

section Exact

theorem negate_ofFraction (negative : Bool) (num den : Nat) :
    (ofFraction negative num den).negate = ofFraction (! negative) num den := by
  rw [ofFraction, ofFraction]
  cases Binary64.ofFraction? num den <;> rfl

theorem text_ofFraction_of_ne_zero (negative : Bool) {n : Nat} (h : n ≠ 0) (hn : n < twoPow 53) :
    (ofFraction negative n 1).text = (if negative then "-" else "") ++ toString n := by
  have hlog := Binary64.log2_le hn
  have hneg : (-((n.log2 : Int) - 52)).toNat = 52 - n.log2 := by omega
  have hpos : ((n.log2 : Int) - 52).toNat = 0 := by omega
  have hzero : twoPow 0 = 1 := rfl
  have hden : 0 < twoPow (52 - n.log2) := Nat.two_pow_pos _
  have hsignificand : n * twoPow (52 - n.log2) ≠ 0 := Nat.mul_ne_zero h hden.ne'
  have hbound : n * twoPow (52 - n.log2) < tenPow 21 * twoPow (52 - n.log2) :=
    Nat.mul_lt_mul_of_pos_right (Nat.lt_trans hn (by decide)) hden
  have hmagnitude : magnitudeText ⟨n * twoPow (52 - n.log2), n.log2 - 52⟩ = digitText n := by
    simp only [magnitudeText, Binary64.fraction, hneg, hpos, hzero, Nat.mul_one]
    rw [if_pos ⟨Nat.mul_mod_left _ _, hbound⟩, Nat.mul_div_cancel _ hden]
  simp only [ofFraction, Binary64.ofFraction?_one h hn, Value.text, if_neg hsignificand, hmagnitude]
  rfl

theorem text_ofFraction (negative : Bool) {n : Nat} (hn : n < twoPow 53) :
    (ofFraction negative n 1).text =
      if negative = true ∧ n ≠ 0 then "-" ++ toString n else toString n := by
  by_cases h : n = 0
  · subst h
    rw [if_neg (by simp)]
    rfl
  · rw [text_ofFraction_of_ne_zero negative h hn]
    cases negative <;> simp [h]

end Exact

section Spellings

def IsDigit (base : Nat) (c : Char) (d : Nat) : Prop :=
  d < base ∧ (c = d.digitChar ∨ c = d.digitChar.toUpper)

inductive Numeral (base : Nat) : List Char → Nat → Prop
  | digit {c : Char} {d : Nat} : IsDigit base c d → Numeral base [c] d
  | append {chars : List Char} {n : Nat} {c : Char} {d : Nat} :
      Numeral base chars n → IsDigit base c d → Numeral base (chars ++ [c]) (base * n + d)

def radixMarks : List (Char × Nat) :=
  [('x', 16), ('X', 16), ('o', 8), ('O', 8), ('b', 2), ('B', 2)]

inductive Unsigned : List Char → Nat → Prop
  | decimal {chars : List Char} {n : Nat} : Numeral 10 chars n → Unsigned chars n
  | suffixed {chars : List Char} {n : Nat} : Numeral 10 chars n → Unsigned (chars ++ ['n']) n
  | marked {mark : Char} {base : Nat} {chars : List Char} {n : Nat} :
      (mark, base) ∈ radixMarks → Numeral base chars n → Unsigned ('0' :: mark :: chars) n

inductive Signed : List Char → Bool → Nat → Prop
  | bare {chars : List Char} {n : Nat} : Unsigned chars n → Signed chars false n
  | plus {chars : List Char} {n : Nat} : Unsigned chars n → Signed ('+' :: chars) false n
  | minus {chars : List Char} {n : Nat} : Unsigned chars n → Signed ('-' :: chars) true n

def IsSeparator (c : Char) : Prop := c = '_' ∨ Text.isBlank c = true

instance : DecidablePred IsSeparator :=
  fun c => inferInstanceAs (Decidable (c = '_' ∨ Text.isBlank c = true))

inductive Spaced : List Char → List Char → Prop
  | nil : Spaced [] []
  | keep (c : Char) {plain chars : List Char} :
      Spaced plain chars → Spaced (c :: plain) (c :: chars)
  | skip {c : Char} {plain chars : List Char} :
      IsSeparator c → Spaced plain chars → Spaced plain (c :: chars)

def SpellsInteger (text : String) (negative : Bool) (n : Nat) : Prop :=
  ∃ plain, Signed plain negative n ∧ Spaced plain text.toList

end Spellings

section Digits

variable {base n d : Nat} {c : Char} {chars : List Char}

def bases : List Nat := [2, 8, 10, 16]

theorem le_sixteen_of_mem_bases : ∀ base ∈ bases, base ≤ 16 := by
  decide

theorem digit?_digitChar :
    ∀ base ∈ bases, ∀ d < base,
      digit? base d.digitChar = some d ∧ digit? base d.digitChar.toUpper = some d := by
  decide

theorem IsDigit.digit? (h : IsDigit base c d) (hbase : base ∈ bases) :
    digit? base c = some d := by
  obtain ⟨hd, rfl | rfl⟩ := h
  · exact (digit?_digitChar base hbase d hd).1
  · exact (digit?_digitChar base hbase d hd).2

theorem Numeral.digits? (h : Numeral base chars n) (hbase : base ∈ bases) :
    digits? base chars = some n := by
  induction h with
  | digit hc => simp [NumberLiteral.digits?, hc.digit? hbase]
  | append _ hc ih =>
    rw [NumberLiteral.digits?] at ih ⊢
    simp [List.foldlM_append, ih, hc.digit? hbase]

theorem Numeral.ne_nil (h : Numeral base chars n) : chars ≠ [] := by
  cases h <;> simp

theorem Numeral.forall_mem {P : Char → Prop} (hP : ∀ c d, IsDigit base c d → P c)
    (h : Numeral base chars n) : ∀ c ∈ chars, P c := by
  induction h with
  | digit hc => simpa using hP _ _ hc
  | append _ hc ih =>
    intro c hmem
    obtain hmem | hmem := List.mem_append.1 hmem
    · exact ih c hmem
    · exact List.mem_singleton.1 hmem ▸ hP _ _ hc

def IsPlain (c : Char) : Prop := c ≠ '+' ∧ c ≠ '-' ∧ ¬ IsSeparator c

instance : DecidablePred IsPlain :=
  fun c => inferInstanceAs (Decidable (c ≠ '+' ∧ c ≠ '-' ∧ ¬ IsSeparator c))

theorem isPlain_digitChar :
    ∀ d < 16, IsPlain d.digitChar ∧ IsPlain d.digitChar.toUpper := by
  decide

theorem IsDigit.isPlain (h : IsDigit base c d) (hbase : base ∈ bases) : IsPlain c := by
  obtain ⟨hd, hc⟩ := h
  have hplain := isPlain_digitChar d (Nat.lt_of_lt_of_le hd (le_sixteen_of_mem_bases base hbase))
  obtain rfl | rfl := hc
  · exact hplain.1
  · exact hplain.2

theorem Numeral.isPlain (h : Numeral base chars n) (hbase : base ∈ bases) :
    ∀ c ∈ chars, IsPlain c :=
  h.forall_mem fun _ _ hc => hc.isPlain hbase

theorem digitChar_decimal :
    ∀ d < 10, d.digitChar.isDigit = true ∧ d.digitChar.toLower = d.digitChar ∧
      d.digitChar.toUpper = d.digitChar := by
  decide

theorem IsDigit.decimal (h : IsDigit 10 c d) : c.isDigit = true ∧ c.toLower = c := by
  obtain ⟨hd, hc⟩ := h
  obtain ⟨hdigit, hlower, hupper⟩ := digitChar_decimal d hd
  rw [hupper, or_self] at hc
  exact hc ▸ ⟨hdigit, hlower⟩

theorem Numeral.isDigit (h : Numeral 10 chars n) : ∀ c ∈ chars, c.isDigit = true :=
  h.forall_mem fun _ _ hc => hc.decimal.1

end Digits

section Reading

variable {base n : Nat} {chars plain : List Char}

theorem radixMarks_plain : ∀ m ∈ radixMarks, IsPlain m.1 ∧ m.2 ∈ bases := by
  decide

theorem splitSign_of_plain (hne : plain ≠ []) (h : ∀ c ∈ plain, IsPlain c) :
    splitSign plain = (false, plain) := by
  obtain ⟨c, rest, rfl⟩ := List.exists_cons_of_ne_nil hne
  obtain ⟨hplus, hminus, -⟩ := h c (List.mem_cons_self ..)
  unfold splitSign
  split <;> simp_all

theorem Numeral.word? (h : Numeral base chars n) (hbase : base ∈ bases)
    (hn : n < twoPow 53) : word? base chars = some n := by
  have hlt : n < twoPow 64 := Nat.lt_trans hn (by decide)
  have hplain : ∀ c ∈ chars, c ≠ '+' := fun c hc => (h.isPlain hbase c hc).1
  unfold NumberLiteral.word?
  split
  · simp at hplain
  · simp [h.ne_nil, h.digits? hbase, hlt]

theorem length_digitText_le (hn : n < twoPow 53) : (digitText n).length ≤ 16 :=
  Nat.toDigits_length 10 n 16 (by decide) (Nat.lt_trans hn (by decide))

theorem ofDecimal_zero_exponent (negative : Bool) (hn : n < twoPow 53) :
    ofDecimal negative n 0 = ofFraction negative n 1 := by
  have hlength := length_digitText_le hn
  by_cases h : n = 0
  · simp [ofDecimal, h]
  · have hone : tenPow 0 = 1 := rfl
    have hlow : ¬ (((digitText n).length : Int) < -400) := by omega
    have hhigh : ¬ (400 < (digitText n).length) := by omega
    simp [ofDecimal, h, hlow, hhigh, hone]

theorem Numeral.decimal? (h : Numeral 10 chars n) (hn : n < twoPow 53) (negative : Bool) :
    decimal? negative chars = some (ofFraction negative n 1) := by
  have hdigit := h.isDigit
  have htake : chars.takeWhile Char.isDigit = chars := List.takeWhile_eq_self_iff.2 hdigit
  have hdrop : chars.dropWhile Char.isDigit = [] := List.dropWhile_eq_nil_iff.2 hdigit
  simp [NumberLiteral.decimal?, htake, hdrop, h.ne_nil, h.digits? (by decide), exponent?,
    ofDecimal_zero_exponent negative hn]

theorem ofList_ne_of_digits (h : ∀ c ∈ chars, c.isDigit = true) {word : String}
    (hword : word.toList.all Char.isDigit = false) : String.ofList chars ≠ word := by
  rintro rfl
  rw [String.toList_ofList, List.all_eq_true.2 h] at hword
  contradiction

theorem Numeral.float? (h : Numeral 10 chars n) (hn : n < twoPow 53) :
    float? chars = some (ofFraction false n 1) := by
  have hdigit := h.isDigit
  have hlower : chars.map Char.toLower = chars :=
    (List.map_congr_left (h.forall_mem fun _ _ hc => hc.decimal.2)).trans (List.map_id chars)
  rw [NumberLiteral.float?, splitSign_of_plain h.ne_nil (h.isPlain (by decide))]
  dsimp only
  rw [hlower]
  -- No word for infinity or for no number is made of digits.
  split
  · exact absurd ‹_› (ofList_ne_of_digits hdigit (by decide))
  · exact absurd ‹_› (ofList_ne_of_digits hdigit (by decide))
  · exact absurd ‹_› (ofList_ne_of_digits hdigit (by decide))
  · exact h.decimal? hn false

theorem unsigned?_of_decimal (h : ∀ c ∈ plain, c.isDigit = true ∨ c = 'n') :
    unsigned? plain = float? ((['n'].isSuffixOf? plain).getD plain) := by
  unfold unsigned?
  split <;> first | rfl | simp at h

theorem Numeral.unsigned? (h : Numeral 10 chars n) (hn : n < twoPow 53) :
    unsigned? chars = some (ofFraction false n 1) := by
  have hdigit := h.isDigit
  have hsuffix : ['n'].isSuffixOf? chars = none := by
    rw [Option.eq_none_iff_forall_ne_some]
    intro rest hrest
    have happend := List.isSuffixOf?_eq_some_iff_append_eq.1 hrest
    have hmem : 'n' ∈ chars := by simp [← happend]
    exact absurd (hdigit _ hmem) (by decide)
  rw [unsigned?_of_decimal fun c hc => .inl (hdigit c hc), hsuffix]
  exact h.float? hn

theorem Numeral.unsigned?_suffix (h : Numeral 10 chars n) (hn : n < twoPow 53) :
    NumberLiteral.unsigned? (chars ++ ['n']) = some (ofFraction false n 1) := by
  have hdigit := h.isDigit
  have hsuffix : ['n'].isSuffixOf? (chars ++ ['n']) = some chars :=
    List.isSuffixOf?_eq_some_iff_append_eq.2 rfl
  have hchars : ∀ c ∈ chars ++ ['n'], c.isDigit = true ∨ c = 'n' := by
    intro c hc
    obtain hc | hc := List.mem_append.1 hc
    · exact .inl (hdigit c hc)
    · exact .inr (List.mem_singleton.1 hc)
  rw [unsigned?_of_decimal hchars, hsuffix]
  exact h.float? hn

theorem unsigned?_of_mark {mark : Char} (h : (mark, base) ∈ radixMarks) :
    unsigned? ('0' :: mark :: chars) = (word? base chars).map (ofFraction false · 1) := by
  simp only [radixMarks, List.mem_cons, Prod.mk.injEq, List.not_mem_nil, or_false] at h
  obtain ⟨rfl, rfl⟩ | ⟨rfl, rfl⟩ | ⟨rfl, rfl⟩ | ⟨rfl, rfl⟩ | ⟨rfl, rfl⟩ | ⟨rfl, rfl⟩ := h <;> rfl

theorem Unsigned.unsigned? (h : Unsigned plain n) (hn : n < twoPow 53) :
    unsigned? plain = some (ofFraction false n 1) := by
  cases h with
  | decimal hnum => exact hnum.unsigned? hn
  | suffixed hnum => exact hnum.unsigned?_suffix hn
  | marked hmark hnum =>
    rw [unsigned?_of_mark hmark, hnum.word? (radixMarks_plain _ hmark).2 hn, Option.map_some]

theorem Unsigned.ne_nil (h : Unsigned plain n) : plain ≠ [] := by
  cases h with
  | decimal hnum => exact hnum.ne_nil
  | suffixed _ => simp
  | marked _ _ => simp

theorem Unsigned.isPlain (h : Unsigned plain n) : ∀ c ∈ plain, IsPlain c := by
  cases h with
  | decimal hnum => exact hnum.isPlain (by decide)
  | suffixed hnum =>
    intro c hc
    obtain hc | hc := List.mem_append.1 hc
    · exact hnum.isPlain (by decide) c hc
    · exact List.mem_singleton.1 hc ▸ by decide
  | marked hmark hnum =>
    obtain ⟨hplain, hbase⟩ := radixMarks_plain _ hmark
    exact List.forall_mem_cons.2 ⟨by decide, List.forall_mem_cons.2 ⟨hplain, hnum.isPlain hbase⟩⟩

theorem Unsigned.not_isSeparator (h : Unsigned plain n) : ∀ c ∈ plain, ¬ IsSeparator c :=
  fun c hc => (h.isPlain c hc).2.2

theorem Signed.not_isSeparator {negative : Bool} (h : Signed plain negative n) :
    ∀ c ∈ plain, ¬ IsSeparator c := by
  cases h with
  | bare hbody => exact hbody.not_isSeparator
  | plus hbody => exact List.forall_mem_cons.2 ⟨by decide, hbody.not_isSeparator⟩
  | minus hbody => exact List.forall_mem_cons.2 ⟨by decide, hbody.not_isSeparator⟩

theorem Signed.splitSign {negative : Bool} (h : Signed plain negative n) :
    ∃ body, splitSign plain = (negative, body) ∧ Unsigned body n := by
  cases h with
  | bare hbody => exact ⟨_, splitSign_of_plain hbody.ne_nil hbody.isPlain, hbody⟩
  | plus hbody => exact ⟨_, rfl, hbody⟩
  | minus hbody => exact ⟨_, rfl, hbody⟩

theorem Spaced.filter (h : Spaced plain chars) (hplain : ∀ c ∈ plain, ¬ IsSeparator c) :
    chars.filter (fun c => c != '_' && ! Text.isBlank c) = plain := by
  induction h with
  | nil => rfl
  | keep c _ ih =>
    obtain ⟨hc, hrest⟩ := List.forall_mem_cons.1 hplain
    obtain ⟨hscore, hblank⟩ := not_or.1 hc
    rw [List.filter_cons_of_pos (by simp [hscore, hblank]), ih hrest]
  | skip hc _ ih =>
    obtain rfl | hblank := hc
    · exact (List.filter_cons_of_neg (by simp)).trans (ih hplain)
    · exact (List.filter_cons_of_neg (by simp [hblank])).trans (ih hplain)

theorem value?_of_spellsInteger {text : String} {negative : Bool}
    (h : SpellsInteger text negative n) (hn : n < twoPow 53) :
    value? text = some (ofFraction negative n 1) := by
  obtain ⟨plain, hsigned, hspaced⟩ := h
  obtain ⟨body, hsplit, hbody⟩ := hsigned.splitSign
  rw [value?, hspaced.filter hsigned.not_isSeparator, hsplit]
  dsimp only
  rw [hbody.unsigned? hn, Option.map_some]
  cases negative with
  | false => rfl
  | true => exact congrArg some (negate_ofFraction false n 1)

/-- All spellings of an integer have one canonical text, its decimal digits after the sign of a
negative number. Zero has no sign. -/
theorem canonical?_integer {text : String} {negative : Bool} (h : SpellsInteger text negative n)
    (hn : n < twoPow 53) :
    canonical? text =
      some (if negative = true ∧ n ≠ 0 then "-" ++ toString n else toString n) := by
  rw [canonical?, value?_of_spellsInteger h hn, Option.map_some, text_ofFraction negative hn]

theorem spellsInteger_hexadecimal : SpellsInteger "- 0x_00fF" true 255 := by
  have hzero : IsDigit 16 '0' 0 := ⟨by decide, .inl rfl⟩
  have hlower : IsDigit 16 'f' 15 := ⟨by decide, .inl rfl⟩
  have hupper : IsDigit 16 'F' 15 := ⟨by decide, .inr (by decide)⟩
  have hnum : Numeral 16 ['0', '0', 'f', 'F'] 255 :=
    (((Numeral.digit hzero).append hzero).append hlower).append hupper
  refine ⟨_, .minus (@Unsigned.marked 'x' _ _ _ (by decide) hnum), ?_⟩
  exact .keep _ (.skip (by decide) (.keep _ (.keep _ (.skip (by decide)
    (.keep _ (.keep _ (.keep _ (.keep _ .nil))))))))

theorem canonical?_integer_hexadecimal :
    SpellsInteger "- 0x_00fF" true 255 ∧ 255 < twoPow 53 ∧
      canonical? "- 0x_00fF" = some "-255" :=
  ⟨spellsInteger_hexadecimal, by decide,
    canonical?_integer spellsInteger_hexadecimal (by decide)⟩

end Reading

end NumberLiteral

end PropSchema
