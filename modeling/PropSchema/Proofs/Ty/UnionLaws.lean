import Mathlib.Data.List.Induction
import PropSchema.Proofs.Ty.Union

/-!
The laws of unions, in tables whose unions are flat. A union has the parts of its types, each once
and where it first occurs. To unite with a union is to unite with its types, and the same types have
one union, however often they are united.
-/

namespace PropSchema

structure FirstOccurrences (l firsts : List TypeId) : Prop where
  mem_iff : ∀ a, a ∈ firsts ↔ a ∈ l
  ordered : firsts.Pairwise fun a b => l.idxOf a < l.idxOf b

theorem firstOccurrences_eraseDups (l : List TypeId) : FirstOccurrences l l.eraseDups where
  mem_iff a := List.mem_eraseDups
  ordered := by
    induction l using List.reverseRecOn with
    | nil => exact .nil
    | append_singleton l last ih =>
      -- What is in the list already keeps its place.
      have hkeep : l.eraseDups.Pairwise
          fun a b => (l ++ [last]).idxOf a < (l ++ [last]).idxOf b := by
        refine ih.imp_of_mem fun {a b} ha hb hlt => ?_
        rw [List.mem_eraseDups] at ha hb
        simpa [List.idxOf_append, ha, hb] using hlt
      rw [List.eraseDups_append]
      by_cases hlast : last ∈ l
      · simpa [List.removeAll, hlast] using hkeep
      · have hnew : ([last].removeAll l).eraseDups = [last] := by
          simp [List.removeAll, hlast, List.eraseDups_cons]
        rw [hnew, List.pairwise_append]
        refine ⟨hkeep, List.pairwise_singleton _ _, fun a ha b hb => ?_⟩
        rw [List.mem_eraseDups] at ha
        rw [List.mem_singleton.1 hb]
        simpa [List.idxOf_append, ha, hlast] using List.idxOf_lt_length_iff.2 ha

theorem eraseDups_append_left (l m : List TypeId) :
    (l.eraseDups ++ m).eraseDups = (l ++ m).eraseDups := by
  have hrest : m.removeAll l.eraseDups = m.removeAll l := by
    apply List.filter_congr
    simp [List.mem_eraseDups]
  rw [List.eraseDups_append, List.eraseDups_append, hrest,
    TypeTable.eraseDups_of_nodup (TypeTable.nodup_eraseDups l)]

def Form.isPart : Form → Bool
  | .union _ | .primitive .never => false
  | _ => true

theorem Form.isPart_iff {f : Form} :
    f.isPart ↔ (∀ parts, f ≠ .union parts) ∧ f ≠ .primitive .never := by
  rw [isPart.eq_def]
  split <;> simp_all

namespace TypeTable

variable {t u w : TypeTable} {id p : TypeId} {f : Form} {xs ys : List TypeId}

theorem constituents_of_isPart (h : (t.form p).isPart) : t.constituents p = [p] := by
  rw [constituents]
  split
  · next hp => rw [hp] at h; cases h
  · next hp => rw [hp] at h; cases h
  · rfl

def Holds (t : TypeTable) (types : List TypeId) : Prop := ∀ x ∈ types, x < t.size

instance (t : TypeTable) (types : List TypeId) : Decidable (t.Holds types) :=
  inferInstanceAs (Decidable (∀ x ∈ types, x < t.size))

def IsPart (t : TypeTable) (p : TypeId) : Prop := p < t.size ∧ (t.form p).isPart

/-- A table of flat unions. What is interned has the form it is interned under, aliases stand for
types of the table, and no stored union has a union or `never` among its parts. -/
structure Flat (t : TypeTable) : Prop where
  form_interned : ∀ f id, t.interned.lookup f = some id → id < t.size ∧ (t.entry id).form = f
  alias_lt : ∀ id a, t.alias? id = some a → a.declared < t.size
  isPart : ∀ id parts, (t.entry id).form = .union parts → ∀ p ∈ parts, t.IsPart p

def IsUnion (t : TypeTable) (id : TypeId) : List TypeId → Prop
  | [] => t.form id = .primitive .never
  | [one] => id = one
  | parts => t.form id = .union parts

theorem exists_entry_formAt (t : TypeTable) (hops : Nat) (id : TypeId) :
    ∃ stored, t.formAt hops id = (t.entry stored).form := by
  induction hops generalizing id with
  | zero => exact ⟨id, rfl⟩
  | succ hops ih =>
    rw [formAt]
    split
    · next a he =>
      split
      · exact ⟨id, by rw [he]⟩
      · exact ih a.declared
    · exact ⟨id, rfl⟩

theorem flatMap_constituents_congr (h : ∀ x ∈ xs, u.form x = t.form x) :
    xs.flatMap u.constituents = xs.flatMap t.constituents := by
  rw [List.flatMap_def, List.flatMap_def]
  congr 1
  apply List.map_congr_left
  intro x hx
  exact constituents_eq_of_form (h x hx)

theorem union_eq_of_grows (hsame : xs.flatMap w.constituents = xs.flatMap t.constituents)
    (h : (t.union xs).2.Grows w) : w.union xs = ((t.union xs).1, w) := by
  obtain ⟨hparts, heq⟩ | ⟨one, hparts, heq⟩ | ⟨htwo, heq⟩ := t.union_cases xs
  · rw [heq] at h ⊢
    rw [union_eq_unite, hsame, hparts]
    exact intern_of_lookup (h.lookup_eq (lookup_intern t _))
  · rw [heq, union_eq_unite, hsame, hparts]
    rfl
  · rw [heq] at h ⊢
    rw [union_of_two_le (by rw [hsame]; exact htwo), hsame]
    exact intern_of_lookup (h.lookup_eq (lookup_intern t _))

namespace Flat

theorem empty : Flat {} where
  form_interned f id h := by simp at h
  alias_lt id a h := by simp [alias?, entry_of_size_le (t := {}) (Nat.zero_le _)] at h
  isPart id parts h := by simp [entry_of_size_le (t := {}) (Nat.zero_le _)] at h

theorem form_eq (ht : t.Flat) (h : t.Grows u) (hid : id < t.size) : u.form id = t.form id :=
  formAt_eq_of_grows h ht.alias_lt hid aliasHops

theorem isPart_of_grows (ht : t.Flat) (h : t.Grows u) (hp : t.IsPart p) : u.IsPart p :=
  ⟨Nat.lt_of_lt_of_le hp.1 h.size_le, by rw [ht.form_eq h hp.1]; exact hp.2⟩

theorem isPart_of_mem_constituents (ht : t.Flat) (hid : id < t.size)
    (hp : p ∈ t.constituents id) : t.IsPart p := by
  rw [constituents] at hp
  split at hp
  · next parts hparts =>
    obtain ⟨stored, hstored⟩ := t.exists_entry_formAt aliasHops id
    exact ht.isPart stored parts (hstored ▸ hparts) p hp
  · cases hp
  · next hunion hnever =>
    cases List.mem_singleton.1 hp
    exact ⟨hid, Form.isPart_iff.2 ⟨hunion, hnever⟩⟩

theorem constituents_eq (ht : t.Flat) (h : t.Grows u) (hxs : t.Holds xs) :
    xs.flatMap u.constituents = xs.flatMap t.constituents :=
  flatMap_constituents_congr fun x hx => ht.form_eq h (hxs x hx)

theorem of_added (ht : t.Flat) (h : t.Grows u)
    (hentry : ∀ id, u.entry id = t.entry id ∨ u.entry id = ⟨f, none⟩)
    (hinterned : ∀ f id, u.interned.lookup f = some id → id < u.size ∧ (u.entry id).form = f)
    (hf : ∀ parts, f = .union parts → ∀ p ∈ parts, t.IsPart p) : u.Flat where
  form_interned := hinterned
  alias_lt id a ha := by
    rw [alias?] at ha
    cases hentry id with
    | inl hold =>
      rw [hold] at ha
      exact Nat.lt_of_lt_of_le (ht.alias_lt id a ha) h.size_le
    | inr hnew => rw [hnew] at ha; cases ha
  isPart id parts hparts p hp := by
    apply ht.isPart_of_grows h
    cases hentry id with
    | inl hold => exact ht.isPart id parts (hold ▸ hparts) p hp
    | inr hnew => exact hf parts (by rw [hnew] at hparts; exact hparts) p hp

theorem addForm (ht : t.Flat) (hf : ∀ parts, f = .union parts → ∀ p ∈ parts, t.IsPart p) :
    (t.addForm f).2.Flat := by
  apply ht.of_added (grows_addForm t f) (fun id => (entry_addForm_cases t f id).imp_right And.right)
  · intro g id hg
    obtain ⟨hlt, hform⟩ := ht.form_interned g id hg
    rw [entry_addForm_of_lt f hlt]
    exact ⟨Nat.lt_of_lt_of_le hlt (grows_addForm t f).size_le, hform⟩
  · exact hf

theorem intern (ht : t.Flat) (hf : ∀ parts, f = .union parts → ∀ p ∈ parts, t.IsPart p) :
    (t.intern f).2.Flat := by
  cases hlookup : t.interned.lookup f with
  | some id => rw [intern_of_lookup hlookup]; exact ht
  | none =>
    have hadd := ht.addForm hf
    have hgrows := grows_intern t f
    rw [intern_of_lookup_none hlookup] at hgrows ⊢
    apply ht.of_added hgrows (fun id => (entry_addForm_cases t f id).imp_right And.right)
    · intro g id hg
      rw [List.lookup_cons] at hg
      split at hg
      · next heq =>
        cases hg
        rw [eq_of_beq heq]
        exact ⟨by simp [size, TypeTable.addForm], congrArg Entry.form (entry_addForm_self t f)⟩
      · exact hadd.form_interned g id hg
    · exact hf

theorem form_intern (ht : t.Flat) (hf : ∀ parts, f = .union parts → ∀ p ∈ parts, t.IsPart p)
    (hpending : f ≠ .pending) :
    (t.intern f).1 < (t.intern f).2.size ∧ (t.intern f).2.form (t.intern f).1 = f := by
  obtain ⟨hlt, hform⟩ := (ht.intern hf).form_interned f _ (lookup_intern t f)
  rw [form, formAt_of_ne_pending (by rw [hform]; exact hpending)]
  exact ⟨hlt, hform⟩

theorem isPart_of_mem_eraseDups (ht : t.Flat) (hxs : t.Holds xs) {parts : List TypeId}
    (hparts : Form.union (xs.flatMap t.constituents).eraseDups = .union parts) :
    ∀ p ∈ parts, t.IsPart p := by
  cases hparts
  intro p hp
  obtain ⟨x, hx, hpx⟩ := List.mem_flatMap.1 (List.mem_eraseDups.1 hp)
  exact ht.isPart_of_mem_constituents (hxs x hx) hpx

theorem union (ht : t.Flat) (hxs : t.Holds xs) : (t.union xs).2.Flat := by
  obtain ⟨-, heq⟩ | ⟨one, -, heq⟩ | ⟨-, heq⟩ := t.union_cases xs
  · rw [heq]
    exact ht.intern (fun parts h => by cases h)
  · rw [heq]
    exact ht
  · rw [heq]
    exact ht.intern fun parts => ht.isPart_of_mem_eraseDups hxs

theorem boolean (ht : t.Flat) : t.boolean.2.Flat := by
  have hno := ht.intern (f := .booleanLiteral false) (fun parts h => by cases h)
  have hyes := hno.intern (f := .booleanLiteral true) (fun parts h => by cases h)
  apply hyes.union
  intro x hx
  obtain ⟨hfalse, -⟩ := ht.form_intern (f := .booleanLiteral false) (fun parts h => by cases h)
    (by simp)
  obtain ⟨htrue, -⟩ := hno.form_intern (f := .booleanLiteral true) (fun parts h => by cases h)
    (by simp)
  rw [List.mem_cons, List.mem_singleton] at hx
  cases hx with
  | inl h => exact h ▸ Nat.lt_of_lt_of_le hfalse (grows_intern _ _).size_le
  | inr h => exact h ▸ htrue

theorem intersection (ht : t.Flat) (xs : List TypeId) : (t.intersection xs).2.Flat := by
  obtain ⟨one, -, heq⟩ | heq := t.intersection_cases xs
  · rw [heq]
    exact ht
  · rw [heq]
    exact ht.addForm (fun parts h => by cases h)

theorem isUnion_union (ht : t.Flat) (hxs : t.Holds xs) :
    (t.union xs).1 < (t.union xs).2.size ∧
      (t.union xs).2.IsUnion (t.union xs).1 (xs.flatMap t.constituents).eraseDups := by
  obtain ⟨hparts, heq⟩ | ⟨one, hparts, heq⟩ | ⟨htwo, heq⟩ := t.union_cases xs
  · rw [heq, hparts]
    exact ht.form_intern (fun parts h => by cases h) (by simp)
  · rw [heq, hparts]
    exact ⟨(ht.isPart_of_mem_eraseDups hxs rfl one (by rw [hparts]; simp)).1, rfl⟩
  · rw [heq]
    obtain ⟨hlt, hform⟩ := ht.form_intern (fun parts => ht.isPart_of_mem_eraseDups hxs) (by simp)
    refine ⟨hlt, ?_⟩
    rw [IsUnion.eq_def]
    split
    · next hnil => rw [hnil] at htwo; cases htwo
    · next one hone => rw [hone] at htwo; simp at htwo
    · exact hform

theorem constituents_union (ht : t.Flat) (hxs : t.Holds xs) :
    (t.union xs).2.constituents (t.union xs).1 = (xs.flatMap t.constituents).eraseDups := by
  obtain ⟨-, hunion⟩ := ht.isUnion_union hxs
  have hpart : ∀ p ∈ (xs.flatMap t.constituents).eraseDups, (t.union xs).2.IsPart p :=
    fun p hp => ht.isPart_of_grows (grows_union t xs) (ht.isPart_of_mem_eraseDups hxs rfl p hp)
  rw [IsUnion.eq_def] at hunion
  split at hunion
  · next hnil => rw [hnil, constituents, hunion]
  · next one hone =>
    rw [hone, hunion]
    exact constituents_of_isPart (hpart one (by rw [hone]; simp)).2
  · rw [constituents, hunion]

theorem union_again (ht : t.Flat) (hxs : t.Holds xs) (h : (t.union xs).2.Grows w) :
    w.union xs = ((t.union xs).1, w) :=
  union_eq_of_grows (ht.constituents_eq ((grows_union t xs).trans h) hxs) h

theorem union_cons_union (ht : t.Flat) (hxs : t.Holds xs) (h : (t.union xs).2.Grows w)
    (ys : List TypeId) : w.union ((t.union xs).1 :: ys) = w.union (xs ++ ys) := by
  have hfirst : w.constituents (t.union xs).1 = (xs.flatMap t.constituents).eraseDups := by
    rw [← ht.constituents_union hxs]
    apply constituents_eq_of_form
    exact (ht.union hxs).form_eq h (ht.isUnion_union hxs).1
  rw [union_eq_unite w, union_eq_unite w, List.flatMap_cons, List.flatMap_append, hfirst,
    ht.constituents_eq ((grows_union t xs).trans h) hxs, eraseDups_append_left]

end Flat

/-- The tables that are made without filling a type that was added before: keyword types, literals,
`boolean`, arrays, unions and intersections of types of the table, and any other form as a new
type. -/
inductive Constructed : TypeTable → Prop
  | empty : Constructed {}
  | primitive {t : TypeTable} (p : Primitive) : t.Constructed → Constructed (t.primitive p).2
  | stringLiteral {t : TypeTable} (value : String) :
    t.Constructed → Constructed (t.stringLiteral value).2
  | numberLiteral {t : TypeTable} (value : String) :
    t.Constructed → Constructed (t.numberLiteral value).2
  | booleanLiteral {t : TypeTable} (value : Bool) :
    t.Constructed → Constructed (t.booleanLiteral value).2
  | boolean {t : TypeTable} : t.Constructed → Constructed t.boolean.2
  | array {t : TypeTable} (element : TypeId) : t.Constructed → Constructed (t.array element).2
  | union {t : TypeTable} {types : List TypeId} :
    t.Constructed → t.Holds types → Constructed (t.union types).2
  | intersection {t : TypeTable} (types : List TypeId) :
    t.Constructed → Constructed (t.intersection types).2
  | other {t : TypeTable} {f : Form} :
    t.Constructed → (∀ parts, f ≠ .union parts) → Constructed (t.addForm f).2

theorem Constructed.flat (h : t.Constructed) : t.Flat := by
  induction h with
  | empty => exact .empty
  | primitive p _ ih => exact ih.intern (fun parts h => by cases h)
  | stringLiteral value _ ih => exact ih.intern (fun parts h => by cases h)
  | numberLiteral value _ ih => exact ih.intern (fun parts h => by cases h)
  | booleanLiteral value _ ih => exact ih.intern (fun parts h => by cases h)
  | boolean _ ih => exact ih.boolean
  | array element _ ih => exact ih.intern (fun parts h => by cases h)
  | union _ htypes ih => exact ih.union htypes
  | intersection types _ ih => exact ih.intersection types
  | other _ hf ih => exact ih.addForm (fun parts h => absurd h (hf parts))

theorem Holds.append (hxs : t.Holds xs) (hys : t.Holds ys) : t.Holds (xs ++ ys) :=
  fun x hx => (List.mem_append.1 hx).elim (hxs x) (hys x)

theorem Holds.of_grows (hxs : t.Holds xs) (h : t.Grows u) : u.Holds xs :=
  fun x hx => Nat.lt_of_lt_of_le (hxs x hx) h.size_le

/-- The union of types in a flat table has what they contribute as its parts. It is found again as
long as the table only grows, also where the types or their union are united with other types. -/
theorem union_laws :
    (∀ t : TypeTable, t.Constructed → t.Flat) ∧
      ∀ (t : TypeTable) (xs ys : List TypeId), t.Flat → t.Holds xs → t.Holds ys →
        (∃ parts, FirstOccurrences (xs.flatMap t.constituents) parts ∧
          (t.union xs).2.IsUnion (t.union xs).1 parts ∧
          (t.union xs).2.constituents (t.union xs).1 = parts) ∧
        (t.union xs).2.Flat ∧
        (∀ w, (t.union xs).2.Grows w → w.union xs = ((t.union xs).1, w)) ∧
        -- The union of the types and the others, once through the union of the types.
        (∀ w, (t.union xs).2.Grows w → w.union ((t.union xs).1 :: ys) = w.union (xs ++ ys)) ∧
        -- It is found again where all the types are united afterwards,
        (∀ inner nested, t.union xs = inner → inner.2.union (inner.1 :: ys) = nested →
          nested.2.union (xs ++ ys) = nested) ∧
        -- and is what is found where they were united first.
        (∀ all inner, t.union (xs ++ ys) = all → all.2.union xs = inner →
          inner.2.union (inner.1 :: ys) = (all.1, inner.2)) := by
  refine ⟨fun t => Constructed.flat, fun t xs ys ht hxs hys => ?_⟩
  have hall : t.Holds (xs ++ ys) := hxs.append hys
  refine ⟨⟨_, firstOccurrences_eraseDups _, (ht.isUnion_union hxs).2, ht.constituents_union hxs⟩,
    ht.union hxs, fun w => ht.union_again hxs, fun w h => ht.union_cons_union hxs h ys, ?_, ?_⟩
  · rintro inner nested rfl rfl
    rw [ht.union_cons_union hxs (.refl _)]
    exact (ht.union hxs).union_again (hall.of_grows (grows_union t xs)) (.refl _)
  · rintro all inner rfl rfl
    rw [(ht.union hall).union_cons_union (hxs.of_grows (grows_union t _)) (.refl _)]
    exact ht.union_again hall (grows_union _ xs)

def letters : TypeTable :=
  ((({} : TypeTable).stringLiteral "a").2.stringLiteral "b").2.stringLiteral "c" |>.2

theorem union_laws_letters :
    letters.Constructed ∧ letters.Flat ∧ letters.Holds [0, 1, 0] ∧ letters.Holds [1, 2] ∧
      letters.union [0, 1, 0] = (3, (letters.union [0, 1]).2) ∧
      (letters.union [0, 1, 0]).2.union [3, 1, 2] =
        (letters.union [0, 1, 0]).2.union [0, 1, 0, 1, 2] := by
  have hmade : letters.Constructed :=
    .stringLiteral "c" (.stringLiteral "b" (.stringLiteral "a" .empty))
  have hflat := union_laws.1 letters hmade
  have hxs : letters.Holds [0, 1, 0] := by decide
  have hys : letters.Holds [1, 2] := by decide
  have hunion : letters.union [0, 1, 0] = (3, (letters.union [0, 1]).2) := rfl
  obtain ⟨-, -, -, hlaw, -, -⟩ := union_laws.2 letters [0, 1, 0] [1, 2] hflat hxs hys
  exact ⟨hmade, hflat, hxs, hys, hunion, hlaw _ (.refl _)⟩

end TypeTable

end PropSchema
