import Mathlib.Logic.Function.Iterate
import PropSchema.Proofs.Component.Arena
import PropSchema.Proofs.Tree.Lines

namespace PropSchema

namespace TypeTable

variable {t u : TypeTable} {id : TypeId} {f : Form}

theorem declared_of_alias {a : Alias} (h : t.entry id = ⟨f, some a⟩) :
    t.declared id = a.declared := by
  rw [declared, alias?, h]

theorem formAt_succ_of_pending (h : (t.entry id).form = .pending) (hops : Nat) :
    t.formAt (hops + 1) id = t.formAt hops (t.declared id) := by
  rw [formAt]
  split
  · next a he =>
    rw [declared_of_alias he]
    split
    · next hself =>
      -- An alias of itself leads nowhere, whatever number of aliases is left.
      rw [hself]
      cases hops with
      | zero => rw [formAt, he]
      | succ hops =>
        rw [formAt, he]
        exact (if_pos hself).symm
    · rfl
  · next hother =>
    have halias : t.alias? id = none := by
      rw [alias?]
      cases he : (t.entry id).aliasOf with
      | none => rfl
      | some a => exact absurd (by rw [← h, ← he]) (hother a)
    rw [declared, halias, formAt_of_alias_none halias]

theorem formAt_eq_pending_iff (t : TypeTable) (hops : Nat) (id : TypeId) :
    t.formAt hops id = .pending ↔ ∀ n ≤ hops, (t.entry (t.declared^[n] id)).form = .pending := by
  induction hops generalizing id with
  | zero => simp [formAt]
  | succ hops ih =>
    by_cases h : (t.entry id).form = .pending
    · rw [formAt_succ_of_pending h, ih]
      constructor
      · intro hall n hn
        cases n with
        | zero => exact h
        | succ n => exact hall n (Nat.le_of_succ_le_succ hn)
      · exact fun hall n hn => hall (n + 1) (Nat.succ_le_succ hn)
    · rw [formAt_of_ne_pending h]
      exact ⟨fun heq => absurd heq h, fun hall => hall 0 (Nat.zero_le _)⟩

theorem formAt_mono {hops more : Nat} (hle : hops ≤ more) (h : t.formAt hops id ≠ .pending) :
    t.formAt more id = t.formAt hops id := by
  induction hops generalizing more id with
  | zero => exact formAt_of_ne_pending h more
  | succ hops ih =>
    obtain ⟨more, rfl⟩ : ∃ k, more = k + 1 := ⟨more - 1, by omega⟩
    by_cases hp : (t.entry id).form = .pending
    · rw [formAt_succ_of_pending hp] at h ⊢
      rw [formAt_succ_of_pending hp]
      exact ih (Nat.le_of_succ_le_succ hle) h
    · rw [formAt_of_ne_pending hp, formAt_of_ne_pending hp]

inductive Leaves (t : TypeTable) : TypeId → Prop
  | out {id : TypeId} {f : Form} : t.entry id = ⟨f, none⟩ → f ≠ .pending → t.Leaves id
  | step {id : TypeId} {f : Form} {a : Alias} :
    t.entry id = ⟨f, some a⟩ → t.Leaves a.declared → t.Leaves id

theorem Fills.leaves (h : t.Fills u) (hid : t.Leaves id) : u.Leaves id := by
  have hkept : ∀ {id e}, t.entry id = e → e ≠ ⟨.pending, none⟩ → u.entry id = e := by
    intro id e he hne
    have hopen : ¬ t.IsOpen id := by rwa [IsOpen, he]
    rw [h.entry_eq (lt_size_of_not_isOpen hopen) hopen, he]
  induction hid with
  | out he hf => exact .out (hkept he fun heq => hf (congrArg Entry.form heq)) hf
  | step he _ ih => exact .step (hkept he fun heq => by cases heq) ih

theorem Leaves.exists_iterate (h : t.Leaves id) : ∃ n, t.alias? (t.declared^[n] id) = none := by
  induction h with
  | out he _ => exact ⟨0, by rw [Function.iterate_zero_apply, alias?, he]⟩
  | step he _ ih =>
    obtain ⟨n, hn⟩ := ih
    exact ⟨n + 1, by rw [Function.iterate_succ_apply, declared_of_alias he, hn]⟩

structure Copies (t : TypeTable) : Prop where
  form_eq : ∀ {id f a}, t.entry id = ⟨f, some a⟩ → f ≠ .pending → t.form a.declared = f
  leaves : ∀ {id}, (t.entry id).form ≠ .pending → t.Leaves id

namespace Copies

theorem empty : Copies {} where
  form_eq {id f a} he _ := by
    rw [entry_of_size_le (Nat.zero_le id)] at he
    cases he
  leaves {id} hne := by
    rw [entry_of_size_le (Nat.zero_le id)] at hne
    exact absurd rfl hne

theorem leaves_of_formAt (h : t.Copies) {hops : Nat} (hne : t.formAt hops id ≠ .pending) :
    t.Leaves id := by
  induction hops generalizing id with
  | zero => exact h.leaves hne
  | succ hops ih =>
    by_cases hp : (t.entry id).form = .pending
    · rw [formAt_succ_of_pending hp] at hne
      cases halias : (t.entry id).aliasOf with
      | none =>
        have hself : t.declared id = id := by rw [declared, alias?, halias]
        rw [hself] at hne
        exact ih hne
      | some a =>
        have he : t.entry id = ⟨.pending, some a⟩ := by rw [← hp, ← halias]
        rw [declared_of_alias he] at hne
        exact .step he (ih hne)
    · exact h.leaves hp

theorem fills (h : t.Copies) (hu : t.Fills u)
    (hnew : ∀ id, u.entry id = t.entry id ∨ (∃ f, u.entry id = ⟨f, none⟩) ∨
      ∃ name target, u.entry id = ⟨t.form target, some ⟨name, target⟩⟩) : u.Copies where
  form_eq {id f a} he hf := by
    obtain hold | ⟨g, hnone⟩ | ⟨name, target, halias⟩ := hnew id
    · have hform := h.form_eq (hold.symm.trans he) hf
      rw [hu.form_eq (by rwa [hform]), hform]
    · cases hnone.symm.trans he
    · cases halias.symm.trans he
      exact hu.form_eq hf
  leaves {id} hne := by
    obtain hold | ⟨g, hnone⟩ | ⟨name, target, halias⟩ := hnew id
    · rw [hold] at hne
      exact hu.leaves (h.leaves hne)
    · rw [hnone] at hne
      exact .out hnone hne
    · rw [halias] at hne
      exact .step halias (hu.leaves (h.leaves_of_formAt hne))

theorem addForm (h : t.Copies) (f : Form) : (t.addForm f).2.Copies := by
  refine h.fills (grows_addForm t f).fills fun id => ?_
  obtain hold | ⟨-, hnew⟩ := t.entry_addForm_cases f id
  · exact .inl hold
  · exact .inr (.inl ⟨f, hnew⟩)

theorem intern (h : t.Copies) (f : Form) : (t.intern f).2.Copies := by
  cases hl : t.interned.lookup f with
  | some old =>
    rw [intern_of_lookup hl]
    exact h
  | none =>
    refine h.fills (grows_intern t f).fills fun id => ?_
    rw [intern_of_lookup_none hl]
    obtain hold | ⟨-, hnew⟩ := t.entry_addForm_cases f id
    · exact .inl hold
    · exact .inr (.inl ⟨f, hnew⟩)

theorem form_declared (h : t.Copies) (hne : t.form id ≠ .pending) :
    t.form (t.declared id) = t.form id := by
  by_cases hp : (t.entry id).form = .pending
  · have hstep : t.form id = t.formAt 7 (t.declared id) := formAt_succ_of_pending hp 7
    rw [hstep] at hne ⊢
    exact formAt_mono (by decide) hne
  · have hform : t.form id = (t.entry id).form := formAt_of_ne_pending hp _
    cases halias : (t.entry id).aliasOf with
    | none => rw [declared, alias?, halias]
    | some a =>
      have he : t.entry id = ⟨(t.entry id).form, some a⟩ := by rw [← halias]
      rw [declared_of_alias he, h.form_eq he hp, hform]

end Copies

end TypeTable

namespace Bindings

variable {b c e : Bindings}

structure Forwards (b c : Bindings) : Prop where
  grows : b.Grows c
  copies : b.table.Copies → c.table.Copies

theorem Forwards.trans (h : b.Forwards c) (h' : c.Forwards e) : b.Forwards e :=
  ⟨h.grows.trans h'.grows, fun hb => h'.copies (h.copies hb)⟩

section Filled

variable {d : Declaration} (hl : b.declared.lookup d.key = none) (h : (b.reserve d).Forwards c)

include hl h

theorem Forwards.fillInterface (object : ObjectType) :
    b.Forwards (c.fillInterface b.table.size object) where
  grows := ((grows_declare hl _).trans h.grows).fillInterface (Nat.le_refl _) object
  copies hb := by
    have hlt := Nat.lt_of_lt_of_le (size_lt_reserve b d) h.grows.table.size_le
    refine (h.copies (hb.addForm .pending)).fills
      (settles_fillInterface h.grows.isOpen object).table fun id => ?_
    by_cases hid : id = b.table.size
    · subst hid
      exact .inr (.inl ⟨_, entry_fillInterface_self hlt h.grows.isOpen object⟩)
    · exact .inl (TypeTable.entry_setForm_of_ne _ hid)

theorem Forwards.fillAlias (name : String) (body : TypeId) :
    b.Forwards (c.fillAlias b.table.size name body) where
  grows := ((grows_declare hl _).trans h.grows).fillAlias (Nat.le_refl _) name body
  copies hb := by
    have hlt := Nat.lt_of_lt_of_le (size_lt_reserve b d) h.grows.table.size_le
    refine (h.copies (hb.addForm .pending)).fills
      (settles_fillAlias h.grows.isOpen name body).table fun id => ?_
    by_cases hid : id = b.table.size
    · subst hid
      by_cases hbody : body = b.table.size
      · subst hbody
        exact .inr (.inl ⟨_, entry_fillAlias_self hlt h.grows.isOpen name⟩)
      · exact .inr (.inr ⟨name, body, entry_fillAlias_target hlt hbody name⟩)
    · exact .inl (entry_fillAlias_of_ne hid name body)

end Filled

end Bindings

namespace Program

theorem closed_forwards (P : Program) : P.Closed Bindings.Forwards where
  refl b := ⟨.refl b, id⟩
  trans := .trans
  add b f _ := ⟨Bindings.grows_addForm b f, fun h => h.addForm f⟩
  intern b f _ := ⟨Bindings.grows_intern b f, fun h => h.intern f⟩
  leaf _ d _ hl _ := ⟨Bindings.grows_declare hl _, fun h => h.addForm d.leafForm⟩
  interface _ _ _ _ hl _ h := h.fillInterface hl _
  typeAlias _ _ _ _ hl _ h := h.fillAlias hl _ _

theorem copies_served {P : Program} (requests : List P.Request) : (served requests).table.Copies :=
  servedFrom_induction (fun b call h => (P.closed_forwards.kept_perform call b).copies h) .empty
    requests

end Program

namespace Bindings.Sound

variable {b : Bindings}

theorem alias_lt (h : b.Sound) {id : TypeId} {a : Alias} (ha : b.table.alias? id = some a) :
    a.declared < b.table.size := by
  have hlt : id < b.table.size := by
    apply TypeTable.lt_size_of_not_isOpen
    intro hopen
    rw [TypeTable.alias?, hopen] at ha
    cases ha
  have hall := (h.confined.entry id hlt).2
  rw [TypeTable.alias?] at ha
  rw [ha] at hall
  exact hall a rfl

theorem iterate_declared_lt (h : b.Sound) {id : TypeId} (hid : id < b.table.size) (n : Nat) :
    b.table.declared^[n] id < b.table.size := by
  induction n generalizing id with
  | zero => exact hid
  | succ n ih =>
    rw [Function.iterate_succ_apply]
    apply ih
    rw [TypeTable.declared]
    split
    · next a ha => exact h.alias_lt ha
    · exact hid

theorem isSome_alias?_of_pending (h : b.Sound) {id : TypeId} (hid : id < b.table.size)
    (hp : (b.table.entry id).form = .pending) : (b.table.alias? id).isSome := by
  cases ha : b.table.alias? id with
  | some a => rfl
  | none =>
    exfalso
    apply h.closed id hid
    rw [TypeTable.IsOpen, ← hp, ← ha]
    rfl

end Bindings.Sound

namespace Program

/-- An alias has the form of what it stands for, and is pending only if the aliases lead to nothing
but aliases, exactly if there are at most eight pending aliases in a row before the first type that
is not pending, if there is one. -/
theorem alias_form_iff {P : Program} (requests : List P.Request) {id : TypeId} {a : Alias}
    (ha : (served requests).table.alias? id = some a) :
    let t := (served requests).table
    (t.form id = t.form a.declared ∧
      (t.form id = .pending → ∀ n, (t.alias? (t.declared^[n] id)).isSome)) ↔
    ((∀ n ≤ TypeTable.aliasHops, (t.entry (t.declared^[n] id)).form = .pending) →
      ∀ n, (t.entry (t.declared^[n] id)).form = .pending) := by
  intro t
  have hsound : (served requests).Sound := sound_servedFrom .empty requests
  have hcopies : t.Copies := copies_served requests
  have hdeclared : t.declared id = a.declared := by rw [TypeTable.declared, ha]
  rw [← hdeclared, ← TypeTable.formAt_eq_pending_iff]
  constructor
  · rintro ⟨-, haliases⟩ hpending n
    by_contra hne
    obtain ⟨m, hm⟩ := (hcopies.leaves hne).exists_iterate
    have hsome := haliases hpending (m + n)
    rw [Function.iterate_add_apply, hm] at hsome
    cases hsome
  · intro hall
    by_cases hform : t.form id = .pending
    · have hpending := hall hform
      have hlt : id < (served requests).table.size := by
        apply TypeTable.lt_size_of_not_isOpen
        intro hopen
        rw [TypeTable.alias?, hopen] at ha
        cases ha
      refine ⟨?_, fun _ n => ?_⟩
      · rw [hform, eq_comm, TypeTable.form, TypeTable.formAt_eq_pending_iff]
        exact fun n _ => hpending (n + 1)
      · exact hsound.isSome_alias?_of_pending (hsound.iterate_declared_lt hlt n) (hpending n)
    · exact ⟨(hcopies.form_declared hform).symm, fun heq => absurd heq hform⟩

def aliasRing (n : Nat) : Program :=
  ofLines ⟨"src/types.ts"⟩ <|
    (⟨1, 0, 1⟩ : SourceLine).interface "A0" "n" ("A" ++ toString n) ::
      (List.range n).map fun k =>
        (⟨5 * k + 12, 13 * k + 23, k + 2⟩ : SourceLine).nameAlias
          ("A" ++ toString (k + 1)) ("A" ++ toString k)

def ringRequest : List (aliasRing 9).Request := (aliasRing 9).requestsFor 0 ["A0"]

theorem eighth_alias_has_form :
    let t := (served ringRequest).table
    t.alias? 2 = some ⟨"A8", 3⟩ ∧ (t.form 2 = t.form 3 ∧
      (t.form 2 = .pending → ∀ n, (t.alias? (t.declared^[n] 2)).isSome)) := by
  have ha : (served ringRequest).table.alias? 2 = some ⟨"A8", 3⟩ := by decide +kernel
  have hform : ((served ringRequest).table.entry ((served ringRequest).table.declared^[8] 2)).form ≠
      .pending := by
    decide +kernel
  exact ⟨ha, (alias_form_iff ringRequest ha).2 fun hall => absurd (hall 8 (Nat.le_refl 8)) hform⟩

/-- The ninth alias is one too many: it stays pending, though the aliases lead to the interface. -/
theorem ninth_alias_is_pending :
    let t := (served ringRequest).table
    t.alias? 1 = some ⟨"A9", 2⟩ ∧ t.form 1 = .pending ∧ t.form 2 ≠ .pending ∧
      t.declared^[9] 1 = 0 ∧ t.alias? 0 = none := by
  decide +kernel

end Program

end PropSchema
