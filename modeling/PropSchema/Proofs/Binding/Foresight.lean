import PropSchema.Proofs.Binding.Growth

namespace PropSchema

open Bindings

namespace Binder

variable {α β : Type} {inv fore : Bindings → Prop}

def Yields (inv fore : Bindings → Prop) (x : BindM α) (result : α → Prop) : Prop :=
  ∀ b, inv b → fore (b.after x).2 → inv (b.after x).2 ∧ result (b.after x).1

theorem yields_pure {a : α} {result : α → Prop} (h : result a) :
    Yields inv fore (pure a : BindM α) result :=
  fun _ hb _ => ⟨hb, h⟩

theorem Yields.bind (hfore : ∀ {b c}, b.Settles c → fore c → fore b) {x : BindM α}
    {f : α → BindM β} {result : α → Prop} {result' : β → Prop} (h : Yields inv fore x result)
    (hf : ∀ a, result a → Yields inv fore (f a) result') (hgrows : ∀ a, Kept Grows (f a)) :
    Yields inv fore (x >>= f) result' := by
  intro b hb hend
  obtain ⟨hb', ha⟩ := h b hb (hfore (hgrows _ _).settles hend)
  exact hf _ ha _ hb' hend

end Binder

namespace Program

open Binder

variable {P : Program} {inside : FileId → Node → Prop} {inv fore : Bindings → Prop}
  {found : TypeId → Prop} {object : ObjectType → Prop}

/-- An invariant that is kept by the dialogues about nodes of a set and by the steps that bind a
declaration, where the types that are found have a property. -/
structure Yielding (P : Program) (inside : FileId → Node → Prop) (inv fore : Bindings → Prop)
    (found : TypeId → Prop) (object : ObjectType → Prop) : Prop where
  has : ∀ {d}, P.Has d → inside d.file d.node
  foreseen : ∀ {b c}, b.Settles c → fore c → fore b
  any : Yields inv fore (onTable (·.primitive .any)) found
  meaning : ∀ {bind : Binder}, (∀ scope n, Kept Grows (bind scope n)) →
    (∀ scope n, inside scope.file n → Yields inv fore (bind scope n) found) →
    ∀ scope n, inside scope.file n →
    Yields inv fore (bind.run (.meaning P scope n)) fun m => ∀ id, m = .type id → found id
  interfaceBody : ∀ {bind : Binder}, (∀ scope n, Kept Grows (bind scope n)) →
    (∀ scope n, inside scope.file n → Yields inv fore (bind scope n) found) →
    ∀ d : Declaration, P.Has d → d.node.kind = .interfaceDeclaration →
    Yields inv fore (bind.run d.interfaceBody) object
  aliasBody : ∀ {bind : Binder}, (∀ scope n, Kept Grows (bind scope n)) →
    (∀ scope n, inside scope.file n → Yields inv fore (bind scope n) found) →
    ∀ d : Declaration, P.Has d → Yields inv fore (bind.run d.aliasBody) found
  declared : ∀ {b key id}, inv b → b.declared.lookup key = some id → found id
  declare : ∀ {b d f}, inv b → f = .pending ∨ f = d.leafForm → fore (b.declare d f) →
    inv (b.declare d f) ∧ found b.table.size
  fillInterface : ∀ {b o} slot, inv b → object o → inv (b.fillInterface slot o)
  fillAlias : ∀ {b body} slot name, inv b → found body → inv (b.fillAlias slot name body)

namespace Yielding

section

variable {bind : Binder} (h : P.Yielding inside inv fore found object)
  (hgrows : ∀ scope n, Kept Grows (bind scope n))
  (hbind : ∀ scope n, inside scope.file n → Yields inv fore (bind scope n) found)
  {d : Declaration} (hd : P.Has d)

include h hgrows hbind hd

theorem interfaceType (hkind : d.node.kind = .interfaceDeclaration) :
    Yields inv fore (bind.interfaceType d) found := by
  intro b hb hend
  have hgrow := kept_grows hgrows d.interfaceBody (b.reserve d)
  have hbody := h.interfaceBody hgrows hbind d hd hkind (b.reserve d)
  rw [after_interfaceType] at hend ⊢
  generalize (b.reserve d).after (bind.run d.interfaceBody) = r at hgrow hbody hend ⊢
  have hr := h.foreseen (settles_fillInterface hgrow.isOpen r.1) hend
  obtain ⟨hslot, hfound⟩ := h.declare hb (.inl rfl) (h.foreseen hgrow.settles hr)
  obtain ⟨hinv, hobject⟩ := hbody hslot hr
  exact ⟨h.fillInterface _ hinv hobject, hfound⟩

theorem aliasType : Yields inv fore (bind.aliasType d) found := by
  intro b hb hend
  have hgrow := kept_grows hgrows d.aliasBody (b.reserve d)
  have hbody := h.aliasBody hgrows hbind d hd (b.reserve d)
  rw [after_aliasType] at hend ⊢
  generalize (b.reserve d).after (bind.run d.aliasBody) = r at hgrow hbody hend ⊢
  have hr := h.foreseen (settles_fillAlias hgrow.isOpen d.name r.1) hend
  obtain ⟨hslot, hfound⟩ := h.declare hb (.inl rfl) (h.foreseen hgrow.settles hr)
  obtain ⟨hinv, htarget⟩ := hbody hslot hr
  exact ⟨h.fillAlias _ _ hinv htarget, hfound⟩

theorem declarationType : Yields inv fore (bind.declarationType d) found := by
  intro b hb hend
  cases hl : b.declared.lookup d.key with
  | some type =>
    rw [after_declarationType_of_some hl]
    exact ⟨hb, h.declared hb hl⟩
  | none =>
    obtain ⟨hkind, heq⟩ | ⟨-, heq⟩ | ⟨-, heq⟩ := after_declarationType_of_none bind hl
    · rw [heq] at hend ⊢
      exact h.interfaceType hgrows hbind hd hkind b hb hend
    · rw [heq] at hend ⊢
      exact h.aliasType hgrows hbind hd b hb hend
    · rw [heq] at hend ⊢
      exact h.declare hb (.inr rfl) hend

end

theorem binderAt (h : P.Yielding inside inv fore found object) (levels : Nat) (scope : Scope)
    (n : Node) (hn : inside scope.file n) : Yields inv fore (P.binderAt levels scope n) found := by
  induction levels generalizing scope n with
  | zero => exact h.any
  | succ levels ih =>
    intro b hb hend
    have hgrows := P.closed_grows.kept_binderAt levels
    have hmeaning := h.meaning hgrows ih scope n hn b hb
    have hcases := after_nodeType_cases P (P.binderAt levels) scope n b
    generalize b.after ((P.binderAt levels).run (.meaning P scope n)) = r at hmeaning hcases
    rw [Program.binderAt] at hend ⊢
    obtain ⟨id, hm, heq⟩ | ⟨d, -, hd, heq⟩ := hcases
    · rw [heq] at hend ⊢
      exact ⟨(hmeaning hend).1, (hmeaning hend).2 id hm⟩
    · rw [heq] at hend ⊢
      have hlater := (kept_grows_declarationType hgrows d r.2).settles
      exact h.declarationType hgrows ih hd r.2 (hmeaning (h.foreseen hlater hend)).1 hend

theorem perform (h : P.Yielding inside inv fore found object) (call : P.Call)
    (hcall : ∀ file n, call = .typeAt file n → inside file n) :
    Yields inv fore (P.perform call) found := by
  cases call with
  | typeAt file n => exact h.binderAt bindLevels _ n (hcall file n rfl)
  | declaredType d hd =>
    exact h.declarationType (P.closed_grows.kept_binderAt bindLevels) (h.binderAt bindLevels) hd

end Yielding

end Program

end PropSchema
