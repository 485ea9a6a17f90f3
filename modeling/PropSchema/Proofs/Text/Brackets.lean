import PropSchema.Proofs.Text.Affix

namespace PropSchema.Text

inductive Mode
  | code
  | equals
  | quoted (quote : Char)
  | escaped (quote : Char)
  deriving DecidableEq, Repr

namespace Mode

def isQuoted : Mode → Bool
  | .code | .equals => false
  | .quoted _ | .escaped _ => true

def next : Mode → Char → Mode
  | .quoted quote, c =>
    if c = quote then .code else if c = '\x5c' then .escaped quote else .quoted quote
  | .escaped quote, _ => .quoted quote
  | _, c =>
    if c ∈ ['\x22', '\x27', '\x60'] then .quoted c else if c = '=' then .equals else .code

def opened (m : Mode) (c : Char) : Nat :=
  if ¬ m.isQuoted ∧ c ∈ ['(', '[', '\x7b', '<'] then 1 else 0

def closed (m : Mode) (c : Char) : Nat :=
  if ¬ m.isQuoted ∧ c ∈ [')', ']', '\x7d', '>'] ∧ ¬ (m = .equals ∧ c = '>') then 1 else 0

theorem closed_le_one (m : Mode) (c : Char) : m.closed c ≤ 1 := by
  rw [closed]
  split <;> decide

end Mode

structure Place where
  depth : Nat
  mode : Mode
  deriving DecidableEq, Repr

namespace Place

def start : Place := ⟨0, .code⟩

def outside (p : Place) : Bool := p.depth == 0 && ! p.mode.isQuoted

def raise (n : Nat) (p : Place) : Place := ⟨p.depth + n, p.mode⟩

def step (p : Place) (c : Char) : Place :=
  ⟨p.depth + p.mode.opened c - p.mode.closed c, p.mode.next c⟩

def read (p : Place) (l : List Char) : Place := l.foldl step p

variable {p : Place} {c : Char} {l r : List Char}

theorem read_cons (p : Place) (c : Char) (l : List Char) :
    p.read (c :: l) = (p.step c).read l := rfl

theorem read_append (p : Place) (l r : List Char) : p.read (l ++ r) = (p.read l).read r :=
  List.foldl_append

theorem raise_ne (p : Place) : p ≠ p.raise 1 := by
  intro h
  have hdepth := congrArg depth h
  simp [raise] at hdepth

theorem outside_raise (n : Nat) (p : Place) : (p.raise (n + 1)).outside = false := by
  simp [outside, raise]

theorem step_raise_cases (p : Place) (c : Char) :
    (∀ n, (p.raise n).step c = (p.step c).raise n) ∨ (p.raise 1).step c = p.step c := by
  have hclosed := p.mode.closed_le_one c
  by_cases hle : p.mode.closed c ≤ p.depth + p.mode.opened c
  · refine .inl fun n => ?_
    simp only [step, raise, Place.mk.injEq, and_true]
    omega
  · refine .inr ?_
    simp only [step, raise, Place.mk.injEq, and_true]
    omega

theorem step_raise (h : (p.raise 1).read (c :: l) = (p.read (c :: l)).raise 1) (n : Nat) :
    (p.raise n).step c = (p.step c).raise n := by
  obtain hstep | hmerge := step_raise_cases p c
  · exact hstep n
  · rw [read_cons, read_cons, hmerge] at h
    exact absurd h (raise_ne _)

theorem read_raise (h : (p.raise 1).read l = (p.read l).raise 1) (n : Nat) :
    (p.raise n).read l = (p.read l).raise n := by
  induction l generalizing p with
  | nil => rfl
  | cons c l ih =>
    have hstep := step_raise h
    rw [read_cons, read_cons, hstep] at h ⊢
    exact ih h

end Place

def Balanced (s : String) : Prop := ∀ depth, Place.read ⟨depth, .code⟩ s.toList = ⟨depth, .code⟩

theorem balanced_iff {s : String} :
    Balanced s ↔ Place.start.read s.toList = .start ∧
      (Place.start.raise 1).read s.toList = Place.start.raise 1 := by
  constructor
  · exact fun h => ⟨h 0, h 1⟩
  · rintro ⟨hzero, hone⟩ depth
    have hraise := Place.read_raise (p := .start) (l := s.toList) (by rw [hone, hzero]) depth
    rw [hzero] at hraise
    simpa [Place.raise, Place.start] using hraise

instance (s : String) : Decidable (Balanced s) := decidable_of_iff' _ balanced_iff

namespace Balanced

variable {a b sep s : String} {texts : List String}

theorem empty : Balanced "" := fun _ => rfl

theorem read_start (hs : Balanced s) : Place.start.read s.toList = .start := hs 0

theorem append (ha : Balanced a) (hb : Balanced b) : Balanced (a ++ b) := by
  intro depth
  rw [String.toList_append, Place.read_append, ha, hb]

theorem ite {c : Prop} [Decidable c] (ha : Balanced a) (hb : Balanced b) :
    Balanced (if c then a else b) := by
  split
  · exact ha
  · exact hb

theorem mark {c : Prop} [Decidable c] (hs : Balanced s) : Balanced (if c then s else "") :=
  hs.ite empty

theorem join (h : ∀ s ∈ texts, Balanced s) : Balanced (String.join texts) := by
  induction texts with
  | nil => exact empty
  | cons s texts ih =>
    rw [List.forall_mem_cons] at h
    rw [String.join_cons]
    exact h.1.append (ih h.2)

theorem intercalate (hsep : Balanced sep) (h : ∀ s ∈ texts, Balanced s) :
    Balanced (sep.intercalate texts) := by
  induction texts with
  | nil => exact empty
  | cons s texts ih =>
    rw [List.forall_mem_cons] at h
    by_cases hnil : texts = []
    · rw [hnil, String.intercalate_singleton]
      exact h.1
    · rw [String.intercalate_cons_of_ne_nil hnil]
      exact (h.1.append hsep).append (ih h.2)

end Balanced

def operators : List String := [" | ", " & ", " => "]

def startsOperator (l : List Char) : Bool :=
  operators.any fun op => (op.toList.isPrefixOf? l).isSome

def exposedFrom (p : Place) : List Char → Bool
  | [] => false
  | c :: l => p.outside && startsOperator (c :: l) || exposedFrom (p.step c) l

theorem exposedFrom_cons (p : Place) (c : Char) (l : List Char) :
    exposedFrom p (c :: l) = (p.outside && startsOperator (c :: l) || exposedFrom (p.step c) l) :=
  rfl

def exposed (s : String) : Bool := exposedFrom .start s.toList

def operand (s : String) : String := if exposed s then "(" ++ s ++ ")" else s

theorem length_parens (s : String) : ("(" ++ s ++ ")").length = s.length + 2 := by
  rw [String.length_append, String.length_append, Nat.add_comm "(".length]
  rfl

theorem operand_of_not_exposed {s : String} (h : exposed s = false) : operand s = s :=
  if_neg (Bool.not_eq_true _ ▸ h)

theorem length_operand (s : String) :
    (operand s).length = s.length + if exposed s then 2 else 0 := by
  rw [operand]
  split
  · exact length_parens s
  · rfl

theorem ite_parens_inj {a b : Bool} {s : String} :
    (if a then "(" ++ s ++ ")" else s) = (if b then "(" ++ s ++ ")" else s) ↔ a = b := by
  have hne : "(" ++ s ++ ")" ≠ s := by
    intro h
    have hlength := length_parens s
    rw [h] at hlength
    omega
  cases a <;> cases b <;> simp [hne, hne.symm]

section Exposed

variable {p : Place} {c : Char} {l r : List Char} {s w : String}

theorem exposedFrom_iff : exposedFrom p l = true ↔
    ∃ a, ∃ op ∈ operators, ∃ b, l = a ++ op.toList ++ b ∧ (p.read a).outside := by
  have hne : ∀ op ∈ operators, op.toList ≠ [] := by decide
  induction l generalizing p with
  | nil =>
    refine iff_of_false Bool.false_ne_true ?_
    rintro ⟨a, op, hop, b, h, -⟩
    simp [hne op hop] at h
  | cons c l ih =>
    simp only [exposedFrom, Bool.or_eq_true, Bool.and_eq_true, startsOperator,
      List.any_eq_true, Option.isSome_iff_exists, List.isPrefixOf?_eq_some_iff_append_eq, ih]
    constructor
    · rintro (⟨hout, op, hop, b, h⟩ | ⟨a, op, hop, b, rfl, hout⟩)
      · exact ⟨[], op, hop, b, h.symm, hout⟩
      · exact ⟨c :: a, op, hop, b, rfl, hout⟩
    · rintro ⟨a, op, hop, b, h, hout⟩
      cases a with
      | nil => exact .inl ⟨hout, op, hop, b, h.symm⟩
      | cons _ a =>
        simp only [List.cons_append, List.cons.injEq] at h
        obtain ⟨rfl, h⟩ := h
        exact .inr ⟨a, op, hop, b, h, hout⟩

theorem exposed_iff :
    exposed s = true ↔ ∃ a, ∃ op ∈ operators, ∃ b, s = a ++ op ++ b ∧
      (Place.start.read a.toList).outside := by
  rw [exposed, exposedFrom_iff]
  constructor
  · rintro ⟨a, op, hop, b, h, hout⟩
    refine ⟨.ofList a, op, hop, .ofList b, String.ext (by simp [h]), ?_⟩
    rwa [String.toList_ofList]
  · rintro ⟨a, op, hop, b, rfl, hout⟩
    exact ⟨a.toList, op, hop, b.toList, by simp, hout⟩

theorem exposed_of_operator {op : String} (hop : op ∈ operators) (hs : Balanced s) (b : String) :
    exposed (s ++ op ++ b) = true := by
  refine exposed_iff.2 ⟨s, op, hop, b, rfl, ?_⟩
  rw [hs.read_start]
  rfl

theorem startsOperator_append_cons (hc : ∀ op ∈ operators, c ∉ op.toList) (l r : List Char) :
    startsOperator (l ++ c :: r) = startsOperator l := by
  rw [startsOperator, startsOperator, Bool.eq_iff_iff, List.any_eq_true, List.any_eq_true]
  refine exists_congr fun op => and_congr_right fun hop => ?_
  rw [isPrefixOf?_append_cons (hc op hop), Option.isSome_map]

theorem exposedFrom_append_cons (hc : ∀ op ∈ operators, c ∉ op.toList) :
    exposedFrom p (l ++ c :: r) = (exposedFrom p l || exposedFrom ((p.read l).step c) r) := by
  induction l generalizing p with
  | nil =>
    have hstarts : startsOperator (c :: r) = false := startsOperator_append_cons hc [] r
    rw [List.nil_append, exposedFrom_cons, hstarts, Bool.and_false]
    rfl
  | cons b l ih =>
    rw [List.cons_append, exposedFrom_cons, ih, ← List.cons_append, startsOperator_append_cons hc,
      exposedFrom_cons, Place.read_cons, Bool.or_assoc]

theorem exposedFrom_raise (h : (p.raise 1).read l = (p.read l).raise 1) (r : List Char) :
    exposedFrom (p.raise 1) (l ++ r) = exposedFrom ((p.read l).raise 1) r := by
  induction l generalizing p with
  | nil => rfl
  | cons c l ih =>
    have hstep := Place.step_raise h 1
    rw [Place.read_cons, Place.read_cons, hstep] at h
    rw [List.cons_append, exposedFrom, Place.outside_raise, Bool.false_and, Bool.false_or,
      Place.read_cons, hstep]
    exact ih h

theorem Balanced.exposedFrom_raise (hs : Balanced s) (r : List Char) :
    exposedFrom ⟨1, .code⟩ (s.toList ++ r) = exposedFrom ⟨1, .code⟩ r := by
  have hone : (Place.start.raise 1).read s.toList = (Place.start.read s.toList).raise 1 := by
    rw [hs.read_start]
    exact hs 1
  have hraise := Text.exposedFrom_raise hone r
  rwa [hs.read_start] at hraise

end Exposed

structure IsPair (left right : String) : Prop where
  opens : ∀ depth, Place.read ⟨depth, .code⟩ left.toList = ⟨depth + 1, .code⟩
  closes : ∀ depth, Place.read ⟨depth + 1, .code⟩ right.toList = ⟨depth, .code⟩
  apart : ∃ c, left.toList = [c] ∧ ∀ op ∈ operators, c ∉ op.toList
  not_exposed : exposedFrom ⟨1, .code⟩ right.toList = false

theorem isPair_parens : IsPair "(" ")" :=
  ⟨fun _ => rfl, fun _ => rfl, ⟨'(', rfl, by decide⟩, rfl⟩

theorem isPair_brackets : IsPair "[" "]" :=
  ⟨fun _ => rfl, fun _ => rfl, ⟨'[', rfl, by decide⟩, rfl⟩

theorem isPair_braces : IsPair "\x7b" "\x7d" :=
  ⟨fun _ => rfl, fun _ => rfl, ⟨'\x7b', rfl, by decide⟩, rfl⟩

theorem isPair_angles : IsPair "<" ">" :=
  ⟨fun _ => rfl, fun _ => rfl, ⟨'<', rfl, by decide⟩, rfl⟩

namespace IsPair

variable {left right s w : String} (h : IsPair left right)

include h

theorem balanced (hs : Balanced s) : Balanced (left ++ s ++ right) := by
  intro depth
  rw [String.toList_append, String.toList_append, Place.read_append, Place.read_append, h.opens, hs,
    h.closes]

theorem exposed_append (hw : Balanced w) (hs : Balanced s) :
    exposed (w ++ (left ++ s ++ right)) = exposed w := by
  obtain ⟨c, hleft, hc⟩ := h.apart
  have hopen : Place.step .start c = ⟨1, .code⟩ := by
    have hopens := h.opens 0
    rwa [hleft] at hopens
  rw [exposed, String.toList_append, String.toList_append, String.toList_append, hleft,
    List.append_assoc, List.singleton_append, exposedFrom_append_cons hc,
    hw.read_start, hopen, hs.exposedFrom_raise, h.not_exposed, Bool.or_false]
  rfl

theorem not_exposed_enclosed (hs : Balanced s) : exposed (left ++ s ++ right) = false := by
  have happend := h.exposed_append .empty hs
  rwa [String.empty_append] at happend

end IsPair

end PropSchema.Text
