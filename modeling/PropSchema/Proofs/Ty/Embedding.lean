import Mathlib.Data.List.Forall2
import PropSchema.Proofs.Ty.Relabelling
import PropSchema.Ty.Kind
import PropSchema.Ty.UnionShape

namespace PropSchema

open Relabelled

namespace Relabelling

variable {α β : Type} [Relabelled α] [Relabelled β] {ρ : Relabelling}

theorem takes_list_iff {l l' : List α} : ρ.Takes l l' ↔ List.Forall₂ ρ.Takes l l' := by
  constructor
  · rintro ⟨hall, rfl⟩
    apply List.forall₂_map_right_iff.2
    apply List.forall₂_same.2
    intro a ha
    exact ⟨hall a ha, rfl⟩
  · intro h
    induction h with
    | nil => exact ⟨fun a ha => absurd ha List.not_mem_nil, rfl⟩
    | cons hab _ ih => exact ⟨List.forall_mem_cons.2 ⟨hab.1, ih.1⟩, congrArg₂ _ hab.2 ih.2⟩

alias ⟨Takes.forall₂, takes_list⟩ := takes_list_iff

theorem Takes.map {l l' : List α} (h : ρ.Takes l l') {f g : α → β}
    (hfg : ∀ a b, ρ.Takes a b → ρ.Takes (f a) (g b)) : ρ.Takes (l.map f) (l'.map g) :=
  takes_list (List.rel_map (fun _ _ hab => hfg _ _ hab) h.forall₂)

theorem Takes.append {l l' m m' : List α} (h : ρ.Takes l l') (hm : ρ.Takes m m') :
    ρ.Takes (l ++ m) (l' ++ m') :=
  takes_list (List.rel_append h.forall₂ hm.forall₂)

theorem Takes.flatMap {l l' : List α} (h : ρ.Takes l l') {f g : α → List β}
    (hfg : ∀ a b, ρ.Takes a b → ρ.Takes (f a) (g b)) : ρ.Takes (l.flatMap f) (l'.flatMap g) :=
  takes_list (List.rel_flatMap h.forall₂ fun _ _ hab => (hfg _ _ hab).forall₂)

theorem Takes.foldl {l l' : List α} (h : ρ.Takes l l') {f g : β → α → β} {c c' : β}
    (hc : ρ.Takes c c')
    (hfg : ∀ c c' a b, ρ.Takes c c' → ρ.Takes a b → ρ.Takes (f c a) (g c' b)) :
    ρ.Takes (l.foldl f c) (l'.foldl g c') :=
  List.rel_foldl (fun c c' hc a b hab => hfg c c' a b hc hab) hc h.forall₂

theorem Takes.filter {l l' : List α} (h : ρ.Takes l l') {p q : α → Bool}
    (hpq : ∀ a b, ρ.Takes a b → p a = q b) : ρ.Takes (l.filter p) (l'.filter q) :=
  takes_list (List.rel_filter (fun a b hab => by simp only [hpq a b hab]) h.forall₂)

theorem Takes.filterMap {l l' : List α} (h : ρ.Takes l l') {f g : α → Option β}
    (hfg : ∀ a b, ρ.Takes a b → ρ.Takes (f a) (g b)) :
    ρ.Takes (l.filterMap f) (l'.filterMap g) := by
  apply takes_list
  replace h := h.forall₂
  induction h with
  | nil => exact .nil
  | @cons a b _ _ hab _ ih =>
    obtain ⟨hall, heq⟩ := hfg a b hab
    rw [List.filterMap_cons, List.filterMap_cons, heq]
    cases hfa : f a with
    | none => exact ih
    | some c => exact .cons ⟨hall c hfa, rfl⟩ ih

theorem Takes.takeWhile {l l' : List α} (h : ρ.Takes l l') {p q : α → Bool}
    (hpq : ∀ a b, ρ.Takes a b → p a = q b) : ρ.Takes (l.takeWhile p) (l'.takeWhile q) := by
  apply takes_list
  replace h := h.forall₂
  induction h with
  | nil => exact .nil
  | cons hab _ ih =>
    rw [List.takeWhile_cons, List.takeWhile_cons, hpq _ _ hab]
    split
    · exact .cons hab ih
    · exact .nil

theorem Takes.dropWhile {l l' : List α} (h : ρ.Takes l l') {p q : α → Bool}
    (hpq : ∀ a b, ρ.Takes a b → p a = q b) : ρ.Takes (l.dropWhile p) (l'.dropWhile q) := by
  apply takes_list
  replace h := h.forall₂
  induction h with
  | nil => exact .nil
  | cons hab hl ih =>
    rw [List.dropWhile_cons, List.dropWhile_cons, hpq _ _ hab]
    split
    · exact ih
    · exact .cons hab hl

theorem Takes.mergeSort {l l' : List α} (h : ρ.Takes l l') {r s : α → α → Bool}
    (hrs : ∀ a b c d, ρ.Takes a b → ρ.Takes c d → r a c = s b d) :
    ρ.Takes (l.mergeSort r) (l'.mergeSort s) := by
  obtain ⟨hall, rfl⟩ := h
  refine ⟨fun a ha => hall a (List.mem_mergeSort.1 ha), ?_⟩
  exact (List.map_mergeSort fun a ha b hb =>
    hrs a _ b _ ⟨hall a ha, rfl⟩ ⟨hall b hb, rfl⟩).symm

theorem Takes.map_eq {γ : Type} {l l' : List α} (h : ρ.Takes l l') {f g : α → γ}
    (hfg : ∀ a b, ρ.Takes a b → f a = g b) : l.map f = l'.map g := by
  replace h := h.forall₂
  induction h with
  | nil => rfl
  | cons hab _ ih => rw [List.map_cons, List.map_cons, hfg _ _ hab, ih]

theorem Takes.mapM_eq {γ : Type} {l l' : List α} (h : ρ.Takes l l') {f g : α → Option γ}
    (hfg : ∀ a b, ρ.Takes a b → f a = g b) : l.mapM f = l'.mapM g := by
  replace h := h.forall₂
  induction h with
  | nil => rfl
  | cons hab _ ih => rw [List.mapM_cons, List.mapM_cons, hfg _ _ hab, ih]

theorem Takes.any_eq {l l' : List α} (h : ρ.Takes l l') {p q : α → Bool}
    (hpq : ∀ a b, ρ.Takes a b → p a = q b) : l.any p = l'.any q := by
  replace h := h.forall₂
  induction h with
  | nil => rfl
  | cons hab _ ih => rw [List.any_cons, List.any_cons, hpq _ _ hab, ih]

theorem Takes.all_eq {l l' : List α} (h : ρ.Takes l l') {p q : α → Bool}
    (hpq : ∀ a b, ρ.Takes a b → p a = q b) : l.all p = l'.all q := by
  replace h := h.forall₂
  induction h with
  | nil => rfl
  | cons hab _ ih => rw [List.all_cons, List.all_cons, hpq _ _ hab, ih]

theorem Takes.length_eq {l l' : List α} (h : ρ.Takes l l') : l.length = l'.length :=
  h.forall₂.length_eq

theorem Takes.isEmpty_eq {l l' : List α} (h : ρ.Takes l l') : l.isEmpty = l'.isEmpty := by
  cases h.forall₂ with
  | nil => rfl
  | cons => rfl

theorem Takes.eraseDups {l l' : List TypeId} (h : ρ.Takes l l') :
    ρ.Takes l.eraseDups l'.eraseDups := by
  obtain ⟨hall, rfl⟩ := h
  refine ⟨fun a ha => hall a (List.mem_eraseDups.1 ha), ?_⟩
  change (l.map ρ.perm).eraseDups = l.eraseDups.map ρ.perm
  clear hall
  -- By the length: removal of repetitions goes on with a filtered tail.
  induction hn : l.length using Nat.strongRecOn generalizing l with
  | ind n ih =>
    cases l with
    | nil => rfl
    | cons a l =>
      have hfilter : (l.map ρ.perm).filter (fun b => ! b == ρ.perm a) =
          (l.filter fun b => ! b == a).map ρ.perm := by
        rw [List.filter_map]
        congr 2
        funext b
        simp
      rw [List.map_cons, List.eraseDups_cons, hfilter, List.eraseDups_cons, List.map_cons]
      congr 1
      have hlt : (l.filter fun b => ! b == a).length < n := by
        rw [← hn, List.length_cons]
        exact Nat.lt_succ_of_le (List.length_filter_le _ l)
      exact ih _ hlt rfl

end Relabelling

theorem mergeMembers_takes {ρ : Relabelling} {own own' extra extra' : List Member}
    (h : ρ.Takes own own') (hextra : ρ.Takes extra extra') :
    ρ.Takes (mergeMembers own extra) (mergeMembers own' extra') := by
  apply hextra.foldl h
  intro acc acc' m m' hacc hm
  have hany : acc.any (·.name == m.name) = acc'.any (·.name == m'.name) := by
    apply hacc.any_eq
    rintro a _ ⟨-, rfl⟩
    rw [hm.2]
    rfl
  rw [hany]
  split
  · exact hacc
  · exact hacc.append (Relabelling.takes_list (.cons hm .nil))

namespace TypeTable

variable {ρ : Relabelling} {t u : TypeTable} {x y : TypeId}

/-- Every type that has a new number is in `u` under this number, and so are all types that it refers
to. -/
def Mirrors (ρ : Relabelling) (t u : TypeTable) : Prop :=
  ∀ id, ρ.dom id → ρ.Takes (t.entry id) (u.entry (ρ.perm id))

namespace Mirrors

theorem entry_takes (h : Mirrors ρ t u) (hx : ρ.Takes x y) : ρ.Takes (t.entry x) (u.entry y) := by
  rw [hx.2]
  exact h x hx.1

theorem alias?_takes (h : Mirrors ρ t u) (hx : ρ.Takes x y) :
    ρ.Takes (t.alias? x) (u.alias? y) := by
  obtain ⟨hall, heq⟩ := h.entry_takes hx
  exact ⟨hall.2, congrArg Entry.aliasOf heq⟩

theorem declared_takes (h : Mirrors ρ t u) (hx : ρ.Takes x y) :
    ρ.Takes (t.declared x) (u.declared y) := by
  obtain ⟨hall, heq⟩ := h.alias?_takes hx
  rw [declared, declared, heq]
  cases ha : t.alias? x with
  | none => exact hx
  | some a => exact ⟨hall a ha, rfl⟩

theorem formAt_takes (h : Mirrors ρ t u) (hx : ρ.Takes x y) (hops : Nat) :
    ρ.Takes (t.formAt hops x) (u.formAt hops y) := by
  induction hops generalizing x y with
  | zero =>
    obtain ⟨hall, heq⟩ := h.entry_takes hx
    exact ⟨hall.1, congrArg Entry.form heq⟩
  | succ hops ih =>
    obtain ⟨hall, heq⟩ := h.entry_takes hx
    rw [formAt, formAt, heq]
    generalize t.entry x = e at hall ⊢
    obtain ⟨form, aliasOf⟩ := e
    cases form with
    | pending =>
      cases aliasOf with
      | none => exact ⟨trivial, rfl⟩
      | some a =>
        have ha : ρ.Takes a.declared (ρ.perm a.declared) := ⟨hall.2 a rfl, rfl⟩
        change ρ.Takes (if a.declared = x then Form.pending else t.formAt hops a.declared)
          (if ρ.perm a.declared = y then Form.pending else u.formAt hops (ρ.perm a.declared))
        by_cases hself : a.declared = x
        · rw [if_pos hself, if_pos (hself ▸ hx.2.symm)]
          exact ⟨trivial, rfl⟩
        · rw [if_neg hself, if_neg fun heq => hself (ρ.perm.injective (heq.trans hx.2))]
          exact ih ha
    | _ => exact ⟨hall.1, rfl⟩

theorem form_takes (h : Mirrors ρ t u) (hx : ρ.Takes x y) : ρ.Takes (t.form x) (u.form y) :=
  h.formAt_takes hx aliasHops

theorem singleton_takes (hx : ρ.Takes x y) : ρ.Takes [x] [y] :=
  Relabelling.takes_list (.cons hx .nil)

theorem nil_takes {α : Type} [Relabelled α] : ρ.Takes ([] : List α) [] :=
  Relabelling.takes_list .nil

theorem constituents_takes (h : Mirrors ρ t u) (hx : ρ.Takes x y) :
    ρ.Takes (t.constituents x) (u.constituents y) := by
  obtain ⟨hall, heq⟩ := h.form_takes hx
  rw [constituents, constituents, heq]
  generalize t.form x = f at hall ⊢
  cases f with
  | union parts => exact ⟨hall, rfl⟩
  | primitive p =>
    cases p with
    | never => exact nil_takes
    | _ => exact singleton_takes hx
  | _ => exact singleton_takes hx

theorem factors_takes (h : Mirrors ρ t u) (hx : ρ.Takes x y) :
    ρ.Takes (t.factors x) (u.factors y) := by
  obtain ⟨hall, heq⟩ := h.form_takes hx
  rw [factors, factors, heq]
  generalize t.form x = f at hall ⊢
  cases f with
  | intersection parts => exact ⟨hall, rfl⟩
  | _ => exact singleton_takes hx

theorem variants_takes (h : Mirrors ρ t u) (hx : ρ.Takes x y) :
    ρ.Takes (t.variants x) (u.variants y) := by
  obtain ⟨hall, heq⟩ := h.form_takes hx
  rw [variants, variants, heq]
  generalize t.form x = f at hall ⊢
  cases f with
  | union parts => exact ⟨hall, rfl⟩
  | _ => exact nil_takes

theorem formMembers_takes {members members' : TypeId → List Member}
    (hmembers : ∀ x y, ρ.Takes x y → ρ.Takes (members x) (members' y)) {f f' : Form}
    (h : ρ.Takes f f') : ρ.Takes (formMembers members f) (formMembers members' f') := by
  obtain ⟨hall, rfl⟩ := h
  cases f with
  | object type => exact ⟨hall.1, rfl⟩
  | intersection parts =>
    have hparts : ρ.Takes parts (rename ρ.perm parts) := ⟨hall, rfl⟩
    exact hparts.foldl nil_takes fun acc acc' x y hacc hx =>
      mergeMembers_takes hacc (hmembers x y hx)
  | union parts =>
    cases parts with
    | nil => exact nil_takes
    | cons first rest =>
      have hfirst : ρ.Takes first (ρ.perm first) := ⟨hall first List.mem_cons_self, rfl⟩
      have hrest : ρ.Takes rest (rename ρ.perm rest) :=
        ⟨fun id hid => hall id (List.mem_cons_of_mem first hid), rfl⟩
      apply (hmembers _ _ hfirst).filter
      rintro m _ ⟨-, rfl⟩
      apply (hrest.map hmembers).all_eq
      intro others others' hothers
      apply hothers.any_eq
      rintro other _ ⟨-, rfl⟩
      rfl
  | _ => exact nil_takes

theorem membersAt_takes (h : Mirrors ρ t u) (hx : ρ.Takes x y) (levels : Nat) :
    ρ.Takes (t.membersAt levels x) (u.membersAt levels y) := by
  induction levels generalizing x y with
  | zero => exact nil_takes
  | succ levels ih => exact formMembers_takes (fun _ _ hx => ih hx) (h.form_takes hx)

theorem members_takes (h : Mirrors ρ t u) (hx : ρ.Takes x y) :
    ρ.Takes (t.members x) (u.members y) :=
  h.membersAt_takes hx memberLevels

section Text

variable {text text' : TypeId → String} (htext : ∀ x y, ρ.Takes x y → text x = text' y)

include htext

theorem display_parameter_eq (p p' : Parameter) (h : ρ.Takes p p') :
    p.display text = p'.display text' := by
  obtain ⟨hall, rfl⟩ := h
  rw [Parameter.display, htext p.type _ ⟨hall, rfl⟩]
  rfl

theorem displayParams_eq (s s' : Signature) (h : ρ.Takes s s') :
    s.displayParams text = s'.displayParams text' := by
  obtain ⟨hall, rfl⟩ := h
  have hparams : ρ.Takes s.params (rename ρ.perm s.params) := ⟨hall.1, rfl⟩
  rw [Signature.displayParams, hparams.map_eq (display_parameter_eq htext)]
  rfl

theorem text_returns_eq (s s' : Signature) (h : ρ.Takes s s') :
    text s.returns = text' s'.returns := by
  obtain ⟨hall, rfl⟩ := h
  exact htext s.returns _ ⟨hall.2, rfl⟩

theorem display_signature_eq (s s' : Signature) (h : ρ.Takes s s') :
    s.display text = s'.display text' := by
  rw [Signature.display, Signature.display, displayParams_eq htext s s' h,
    text_returns_eq htext s s' h]

theorem display_element_eq (e e' : TupleElement) (h : ρ.Takes e e') :
    e.display text = e'.display text' := by
  obtain ⟨hall, rfl⟩ := h
  rw [TupleElement.display, htext e.type _ ⟨hall, rfl⟩]
  rfl

theorem display_member_eq (m m' : Member) (h : ρ.Takes m m') :
    m.display text = m'.display text' := by
  obtain ⟨hall, rfl⟩ := h
  rw [Member.display, htext m.declared _ ⟨hall.1, rfl⟩]
  rfl

theorem display_object_eq (o o' : ObjectType) (h : ρ.Takes o o') :
    o.display text = o'.display text' := by
  obtain ⟨⟨hmembers, hcalls⟩, rfl⟩ := h
  obtain ⟨name, members, calls⟩ := o
  have hmemberTexts : members.map (·.display text) =
      (rename ρ.perm members).map (·.display text') :=
    Relabelling.Takes.map_eq ⟨hmembers, rfl⟩ (display_member_eq htext)
  have hcallTexts : calls.map (fun c => c.displayParams text ++ ": " ++ text c.returns ++ "; ") =
      (rename ρ.perm calls).map
        (fun c => c.displayParams text' ++ ": " ++ text' c.returns ++ "; ") := by
    apply Relabelling.Takes.map_eq ⟨hcalls, rfl⟩
    intro c c' hc
    rw [displayParams_eq htext c c' hc, text_returns_eq htext c c' hc]
  have hbody := congrArg₂ (fun a b => "\x7b " ++ String.join a ++ String.join b ++ "\x7d")
    hcallTexts hmemberTexts
  cases name with
  | some name => rfl
  | none =>
    cases members with
    | cons => exact hbody
    | nil =>
      cases calls with
      | nil => rfl
      | cons call rest =>
        cases rest with
        | nil => exact display_signature_eq htext call _ ⟨hcalls call List.mem_cons_self, rfl⟩
        | cons => exact hbody

end Text

theorem needsParens_eq (h : Mirrors ρ t u) (hx : ρ.Takes x y) (tight : Bool) :
    t.needsParens tight x = u.needsParens tight y := by
  have halias : (t.alias? x).isNone = (u.alias? y).isNone := by
    rw [(h.alias?_takes hx).2]
    exact Option.isNone_map.symm
  rw [needsParens, needsParens, halias, (h.form_takes hx).2]
  congr 1
  cases t.form x with
  | object o =>
    simp [rename, Form.rename, ObjectType.isBareCall]
  | _ => rfl

theorem foldBooleans_takes (h : Mirrors ρ t u) {parts parts' : List TypeId}
    (hparts : ρ.Takes parts parts') :
    ρ.Takes (t.foldBooleans parts) (u.foldBooleans parts') := by
  have hform : ∀ (p : Form → Bool), (∀ f, p (rename ρ.perm f) = p f) →
      ∀ x y, ρ.Takes x y → p (t.form x) = p (u.form y) := by
    intro p hp x y hx
    rw [(h.form_takes hx).2, hp]
  have hboolean : ∀ x y, ρ.Takes x y →
      (! (t.form x).isBooleanLiteral) = ! (u.form y).isBooleanLiteral :=
    hform (fun f => ! f.isBooleanLiteral) fun f => by cases f <;> rfl
  have hhas : ∀ value, parts.any (fun id => t.form id == .booleanLiteral value) =
      parts'.any fun id => u.form id == .booleanLiteral value := by
    intro value
    apply hparts.any_eq
    apply hform (· == .booleanLiteral value)
    intro f
    cases f <;> rfl
  have hsome : ∀ {l l' : List TypeId}, ρ.Takes l l' → ρ.Takes (l.map some) (l'.map some) :=
    fun hl => hl.map fun _ _ hx => Relabelling.takes_some hx
  rw [foldBooleans, foldBooleans]
  simp only [hhas]
  split
  · refine (hsome (hparts.takeWhile hboolean)).append (Relabelling.takes_list (.cons ?_ ?_))
    · exact Relabelling.takes_none
    · exact (hsome ((hparts.dropWhile hboolean).filter hboolean)).forall₂
  · exact hsome hparts

theorem displayOperand_eq (h : Mirrors ρ t u) {text text' : TypeId → String}
    (htext : ∀ x y, ρ.Takes x y → text x = text' y) (tight : Bool) (x y : TypeId)
    (hx : ρ.Takes x y) : t.displayOperand text tight x = u.displayOperand text' tight y := by
  rw [displayOperand, displayOperand, h.needsParens_eq hx, htext x y hx]

theorem displayForm_eq (h : Mirrors ρ t u) {text text' : TypeId → String}
    (htext : ∀ x y, ρ.Takes x y → text x = text' y) {f f' : Form} (hf : ρ.Takes f f') :
    t.displayForm text f = u.displayForm text' f' := by
  obtain ⟨hall, rfl⟩ := hf
  cases f with
  | union parts =>
    have hparts : ρ.Takes parts (rename ρ.perm parts) := ⟨hall, rfl⟩
    apply congrArg (" | ".intercalate ·)
    apply (h.foldBooleans_takes hparts).map_eq
    rintro part _ ⟨hpart, rfl⟩
    cases part with
    | none => rfl
    | some id => exact h.displayOperand_eq htext false id _ ⟨hpart id rfl, rfl⟩
  | intersection parts =>
    apply congrArg (" & ".intercalate ·)
    exact Relabelling.Takes.map_eq ⟨hall, rfl⟩ (h.displayOperand_eq htext true)
  | array element =>
    exact congrArg (· ++ "[]") (h.displayOperand_eq htext true element _ ⟨hall, rfl⟩)
  | tuple elements =>
    apply congrArg fun texts => "[" ++ ", ".intercalate texts ++ "]"
    exact Relabelling.Takes.map_eq ⟨hall, rfl⟩ (display_element_eq htext)
  | object o => exact display_object_eq htext o _ ⟨hall, rfl⟩
  | function signature => exact display_signature_eq htext signature _ ⟨hall, rfl⟩
  | reference name args =>
    cases args with
    | nil => rfl
    | cons arg args =>
      apply congrArg fun texts => name ++ "<" ++ ", ".intercalate texts ++ ">"
      exact Relabelling.Takes.map_eq ⟨hall, rfl⟩ htext
  | _ => rfl

theorem displayAt_eq (h : Mirrors ρ t u) (levels : Nat) (x y : TypeId) (hx : ρ.Takes x y) :
    t.displayAt levels x = u.displayAt levels y := by
  induction levels generalizing x y with
  | zero =>
    unfold displayAt
    rw [(h.alias?_takes hx).2]
    cases t.alias? x <;> rfl
  | succ levels ih =>
    unfold displayAt
    rw [(h.alias?_takes hx).2]
    cases t.alias? x with
    | none => exact h.displayForm_eq ih (h.form_takes hx)
    | some a => rfl

theorem display_eq (h : Mirrors ρ t u) (x y : TypeId) (hx : ρ.Takes x y) :
    t.display x = u.display y :=
  h.displayAt_eq displayLevels x y hx

theorem kind_eq (h : Mirrors ρ t u) (hx : ρ.Takes x y) : t.kind x = u.kind y := by
  rw [kind, kind, (h.form_takes (h.declared_takes hx)).2]
  cases t.form (t.declared x) with
  | object o => simp [rename, Form.rename, Form.kind]
  | _ => rfl

theorem keyParts_takes (h : Mirrors ρ t u) (hx : ρ.Takes x y) :
    ρ.Takes (t.keyParts x) (u.keyParts y) := by
  obtain ⟨hall, heq⟩ := h.form_takes hx
  rw [keyParts, keyParts, heq]
  generalize t.form x = f at hall ⊢
  cases f with
  | union parts => exact ⟨hall, rfl⟩
  | _ => exact singleton_takes hx

theorem keyName?_eq (h : Mirrors ρ t u) (hx : ρ.Takes x y) : t.keyName? x = u.keyName? y := by
  rw [keyName?, keyName?, (h.form_takes hx).2]
  cases t.form x <;> rfl

theorem keyNames_eq (h : Mirrors ρ t u) (hx : ρ.Takes x y) : t.keyNames x = u.keyNames y := by
  have hnames := (h.keyParts_takes hx).map_eq fun _ _ hab => h.keyName?_eq hab
  replace hnames := congrArg (List.filterMap id) hnames
  rw [List.filterMap_map, List.filterMap_map] at hnames
  exact hnames

end Mirrors

end TypeTable

end PropSchema
