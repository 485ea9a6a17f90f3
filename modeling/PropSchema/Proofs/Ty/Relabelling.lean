import Mathlib.Logic.Equiv.Basic
import Mathlib.Order.Defs.PartialOrder
import PropSchema.Binding.Basic

/-!
Types under other numbers. All data of the binder that refers to types can be renamed. A relabelling
gives new numbers to the types of a table and is extended as the table grows.
-/

namespace PropSchema

class Relabelled (α : Type) where
  rename : (TypeId → TypeId) → α → α
  All : (TypeId → Prop) → α → Prop
  rename_congr : ∀ {σ τ : TypeId → TypeId} {a : α}, All (fun id => σ id = τ id) a →
    rename σ a = rename τ a
  rename_rename : ∀ (σ τ : TypeId → TypeId) (a : α), rename τ (rename σ a) = rename (τ ∘ σ) a
  rename_id : ∀ a : α, rename id a = a
  all_mono : ∀ {p q : TypeId → Prop} {a : α}, (∀ id, p id → q id) → All p a → All q a
  all_of : ∀ {p : TypeId → Prop}, (∀ id, p id) → ∀ a : α, All p a
  all_and : ∀ {p q : TypeId → Prop} {a : α}, All p a → All q a → All (fun id => p id ∧ q id) a
  all_of_rename : ∀ {p : TypeId → Prop} {σ : TypeId → TypeId} {a : α}, All p (rename σ a) →
    All (fun id => p (σ id)) a

namespace Relabelled

variable {α : Type}

instance : Relabelled TypeId where
  rename σ id := σ id
  All p id := p id
  rename_congr h := h
  rename_rename _ _ _ := rfl
  rename_id _ := rfl
  all_mono h := h _
  all_of h id := h id
  all_and hp hq := ⟨hp, hq⟩
  all_of_rename h := h

instance [Relabelled α] : Relabelled (List α) where
  rename σ := List.map (rename σ)
  All p l := ∀ a ∈ l, All p a
  rename_congr h := List.map_congr_left fun a ha => rename_congr (h a ha)
  rename_rename σ τ l := by
    rw [List.map_map]
    exact List.map_congr_left fun a _ => rename_rename σ τ a
  rename_id l := by
    rw [show rename id = (id : α → α) from funext rename_id]
    exact List.map_id l
  all_mono h hl a ha := all_mono h (hl a ha)
  all_of h _ a _ := all_of h a
  all_and hp hq a ha := all_and (hp a ha) (hq a ha)
  all_of_rename h a ha := all_of_rename (h _ (List.mem_map_of_mem ha))

instance [Relabelled α] : Relabelled (Option α) where
  rename σ := Option.map (rename σ)
  All p o := ∀ a, o = some a → All p a
  rename_congr {σ τ o} h := by
    cases o with
    | none => rfl
    | some a => exact congrArg some (rename_congr (h a rfl))
  rename_rename σ τ o := by
    cases o with
    | none => rfl
    | some a => exact congrArg some (rename_rename σ τ a)
  rename_id o := by
    cases o with
    | none => rfl
    | some a => exact congrArg some (rename_id a)
  all_mono h ho a ha := all_mono h (ho a ha)
  all_of h _ a _ := all_of h a
  all_and hp hq a ha := all_and (hp a ha) (hq a ha)
  all_of_rename {p σ o} h a ha := all_of_rename (h (rename σ a) (ha ▸ rfl))

instance : Relabelled String where
  rename _ text := text
  All _ _ := True
  rename_congr _ := rfl
  rename_rename _ _ _ := rfl
  rename_id _ := rfl
  all_mono _ _ := trivial
  all_of _ _ := trivial
  all_and _ _ := trivial
  all_of_rename _ := trivial

instance : Relabelled Member where
  rename σ m := { m with declared := σ m.declared, site := σ m.site }
  All p m := p m.declared ∧ p m.site
  rename_congr h := by rw [h.1, h.2]
  rename_rename _ _ _ := rfl
  rename_id _ := rfl
  all_mono h hm := ⟨h _ hm.1, h _ hm.2⟩
  all_of h _ := ⟨h _, h _⟩
  all_and hp hq := ⟨⟨hp.1, hq.1⟩, hp.2, hq.2⟩
  all_of_rename h := h

instance : Relabelled Parameter where
  rename σ p := { p with type := σ p.type }
  All p q := p q.type
  rename_congr h := by rw [h]
  rename_rename _ _ _ := rfl
  rename_id _ := rfl
  all_mono h hq := h _ hq
  all_of h _ := h _
  all_and hp hq := ⟨hp, hq⟩
  all_of_rename h := h

instance : Relabelled TupleElement where
  rename σ e := { e with type := σ e.type }
  All p e := p e.type
  rename_congr h := by rw [h]
  rename_rename _ _ _ := rfl
  rename_id _ := rfl
  all_mono h he := h _ he
  all_of h _ := h _
  all_and hp hq := ⟨hp, hq⟩
  all_of_rename h := h

instance : Relabelled Signature where
  rename σ s := ⟨rename σ s.params, σ s.returns⟩
  All p s := All p s.params ∧ p s.returns
  rename_congr h := by rw [rename_congr h.1, h.2]
  rename_rename σ τ s := by simp only [rename_rename, Function.comp]
  rename_id s := by simp only [rename_id, id]
  all_mono h hs := ⟨all_mono h hs.1, h _ hs.2⟩
  all_of h _ := ⟨all_of h _, h _⟩
  all_and hp hq := ⟨all_and hp.1 hq.1, hp.2, hq.2⟩
  all_of_rename h := ⟨all_of_rename h.1, h.2⟩

instance : Relabelled ObjectType where
  rename σ o := ⟨o.name, rename σ o.members, rename σ o.calls⟩
  All p o := All p o.members ∧ All p o.calls
  rename_congr h := by rw [rename_congr h.1, rename_congr h.2]
  rename_rename σ τ o := by simp only [rename_rename]
  rename_id o := by simp only [rename_id]
  all_mono h ho := ⟨all_mono h ho.1, all_mono h ho.2⟩
  all_of h _ := ⟨all_of h _, all_of h _⟩
  all_and hp hq := ⟨all_and hp.1 hq.1, all_and hp.2 hq.2⟩
  all_of_rename h := ⟨all_of_rename h.1, all_of_rename h.2⟩

end Relabelled

open Relabelled

def Form.rename (σ : TypeId → TypeId) : Form → Form
  | .union parts => .union (Relabelled.rename σ parts)
  | .intersection parts => .intersection (Relabelled.rename σ parts)
  | .array element => .array (σ element)
  | .tuple elements => .tuple (Relabelled.rename σ elements)
  | .object type => .object (Relabelled.rename σ type)
  | .function signature => .function (Relabelled.rename σ signature)
  | .reference name args => .reference name (Relabelled.rename σ args)
  | f => f

def Form.All (p : TypeId → Prop) : Form → Prop
  | .union parts => Relabelled.All p parts
  | .intersection parts => Relabelled.All p parts
  | .array element => p element
  | .tuple elements => Relabelled.All p elements
  | .object type => Relabelled.All p type
  | .function signature => Relabelled.All p signature
  | .reference _ args => Relabelled.All p args
  | _ => True

namespace Relabelled

instance : Relabelled Form where
  rename := Form.rename
  All := Form.All
  rename_congr {σ τ f} h := by
    cases f with
    | union parts => exact congrArg Form.union (rename_congr h)
    | intersection parts => exact congrArg Form.intersection (rename_congr h)
    | array element => exact congrArg Form.array h
    | tuple elements => exact congrArg Form.tuple (rename_congr h)
    | object type => exact congrArg Form.object (rename_congr h)
    | function signature => exact congrArg Form.function (rename_congr h)
    | reference name args => exact congrArg (Form.reference name) (rename_congr h)
    | _ => rfl
  rename_rename σ τ f := by cases f <;> simp only [Form.rename, rename_rename, Function.comp]
  rename_id f := by cases f <;> simp only [Form.rename, rename_id, id]
  all_mono {p q f} h hf := by
    cases f with
    | array element => exact h _ hf
    | union | intersection | tuple | object | function | reference => exact all_mono h hf
    | _ => trivial
  all_of h f := by
    cases f with
    | array element => exact h _
    | union parts => exact all_of h parts
    | intersection parts => exact all_of h parts
    | tuple elements => exact all_of h elements
    | object type => exact all_of h type
    | function signature => exact all_of h signature
    | reference name args => exact all_of h args
    | _ => trivial
  all_and {p q f} hp hq := by
    cases f with
    | array element => exact ⟨hp, hq⟩
    | union | intersection | tuple | object | function | reference => exact all_and hp hq
    | _ => trivial
  all_of_rename {p σ f} h := by
    cases f with
    | array element => exact h
    | union | intersection | tuple | object | function | reference => exact all_of_rename h
    | _ => trivial

instance : Relabelled Alias where
  rename σ a := { a with declared := σ a.declared }
  All p a := p a.declared
  rename_congr h := by rw [h]
  rename_rename _ _ _ := rfl
  rename_id _ := rfl
  all_mono h ha := h _ ha
  all_of h _ := h _
  all_and hp hq := ⟨hp, hq⟩
  all_of_rename h := h

instance : Relabelled Entry where
  rename σ e := ⟨rename σ e.form, rename σ e.aliasOf⟩
  All p e := All p e.form ∧ All p e.aliasOf
  rename_congr h := by rw [rename_congr h.1, rename_congr h.2]
  rename_rename σ τ e := by simp only [rename_rename]
  rename_id e := by simp only [rename_id]
  all_mono h he := ⟨all_mono h he.1, all_mono h he.2⟩
  all_of h _ := ⟨all_of h _, all_of h _⟩
  all_and hp hq := ⟨all_and hp.1 hq.1, all_and hp.2 hq.2⟩
  all_of_rename h := ⟨all_of_rename h.1, all_of_rename h.2⟩

instance : Relabelled Dialogue.Entry where
  rename σ
    | .member m => .member (rename σ m)
    | .call s => .call (rename σ s)
    | .nothing => .nothing
  All p
    | .member m => All p m
    | .call s => All p s
    | .nothing => True
  rename_congr {σ τ e} h := by
    cases e with
    | member m => exact congrArg Dialogue.Entry.member (rename_congr h)
    | call s => exact congrArg Dialogue.Entry.call (rename_congr h)
    | nothing => rfl
  rename_rename σ τ e := by cases e <;> simp only [rename_rename]
  rename_id e := by cases e <;> simp only [rename_id]
  all_mono {p q e} h he := by
    cases e with
    | member m => exact all_mono h he
    | call s => exact all_mono h he
    | nothing => trivial
  all_of h e := by
    cases e with
    | member m => exact all_of h m
    | call s => exact all_of h s
    | nothing => trivial
  all_and {p q e} hp hq := by
    cases e with
    | member m => exact all_and hp hq
    | call s => exact all_and hp hq
    | nothing => trivial
  all_of_rename {p σ e} h := by
    cases e with
    | member m => exact all_of_rename h
    | call s => exact all_of_rename h
    | nothing => trivial

instance : Relabelled Meaning where
  rename σ
    | .type id => .type (σ id)
    | .declaration d => .declaration d
  All p
    | .type id => p id
    | .declaration _ => True
  rename_congr {σ τ m} h := by
    cases m with
    | type id => exact congrArg Meaning.type h
    | declaration d => rfl
  rename_rename σ τ m := by cases m <;> rfl
  rename_id m := by cases m <;> rfl
  all_mono {p q m} h hm := by
    cases m with
    | type id => exact h _ hm
    | declaration d => trivial
  all_of h m := by
    cases m with
    | type id => exact h id
    | declaration d => trivial
  all_and {p q m} hp hq := by
    cases m with
    | type id => exact ⟨hp, hq⟩
    | declaration d => trivial
  all_of_rename {p σ m} h := by
    cases m with
    | type id => exact h
    | declaration d => trivial

variable {α : Type} [Relabelled α]

theorem rename_symm_rename (σ : Equiv.Perm TypeId) (a : α) : rename σ.symm (rename σ a) = a := by
  rw [rename_rename, Equiv.symm_comp_self, rename_id]

theorem rename_injective (σ : Equiv.Perm TypeId) : Function.Injective (rename σ : α → α) :=
  Function.LeftInverse.injective (rename_symm_rename σ)

theorem all_none {p : TypeId → Prop} : All p (none : Option α) :=
  fun a ha => (Option.some_ne_none a ha.symm).elim

theorem all_some {p : TypeId → Prop} {a : α} (h : All p a) : All p (some a) :=
  fun _ ha => Option.some.inj ha ▸ h

end Relabelled

/-- New numbers for some types. What the permutation does with the others is open. -/
structure Relabelling where
  perm : Equiv.Perm TypeId
  dom : TypeId → Prop

namespace Relabelling

variable {α : Type} [Relabelled α] {ρ ρ' : Relabelling} {a b : α}

instance : Preorder Relabelling where
  le ρ ρ' := ∀ id, ρ.dom id → ρ'.dom id ∧ ρ'.perm id = ρ.perm id
  le_refl _ _ hid := ⟨hid, rfl⟩
  le_trans _ _ _ h h' id hid :=
    ⟨(h' id (h id hid).1).1, (h' id (h id hid).1).2.trans (h id hid).2⟩

/-- All types that `a` refers to have a number, and `b` is `a` under these numbers. -/
def Takes (ρ : Relabelling) (a b : α) : Prop := All ρ.dom a ∧ b = rename ρ.perm a

theorem Takes.mono (h : ρ.Takes a b) (hρ : ρ ≤ ρ') : ρ'.Takes a b := by
  refine ⟨all_mono (fun id hid => (hρ id hid).1) h.1, ?_⟩
  rw [h.2]
  exact rename_congr (all_mono (fun id hid => (hρ id hid).2.symm) h.1)

theorem takes_none : ρ.Takes (none : Option α) none := ⟨all_none, rfl⟩

theorem takes_some (h : ρ.Takes a b) : ρ.Takes (some a) (some b) :=
  ⟨all_some h.1, congrArg some h.2⟩

theorem Takes.entry {f f' : Form} {x x' : Option Alias} (hf : ρ.Takes f f') (hx : ρ.Takes x x') :
    ρ.Takes (Entry.mk f x) (Entry.mk f' x') := by
  refine ⟨⟨hf.1, hx.1⟩, ?_⟩
  rw [hf.2, hx.2]
  rfl

theorem exists_next (ρ : Relabelling) {x y : TypeId} (hx : ¬ ρ.dom x)
    (h : ∀ id, ρ.dom id → ρ.perm id ≠ y) :
    ∃ ρ' ≥ ρ, (∀ id, ρ'.dom id ↔ ρ.dom id ∨ id = x) ∧ ρ'.perm x = y := by
  refine ⟨⟨ρ.perm.trans (Equiv.swap (ρ.perm x) y), fun id => ρ.dom id ∨ id = x⟩, ?_,
    fun _ => Iff.rfl, ?_⟩
  · intro id hid
    refine ⟨.inl hid, ?_⟩
    apply Equiv.swap_apply_of_ne_of_ne
    · exact fun heq => hx (ρ.perm.injective heq ▸ hid)
    · exact h id hid
  · exact Equiv.swap_apply_left _ _

end Relabelling

end PropSchema
