import PropSchema.Binding.Basic
import PropSchema.Proofs.Module.Resolution
import PropSchema.Proofs.Ty.Union

/-!
Runs of the binder. Whatever a run asks, it only adds types and declarations, and it fills no slot
but those it reserves itself. One principle serves all invariants of runs: a relation between
bindings that holds over every addition and every declaration holds over every run.
-/

namespace PropSchema

namespace Dialogue

variable {α β : Type}

def Ends (p : α → Prop) : Dialogue α → Prop
  | .done value => p value
  | .ask _ next => ∀ answer, (next answer).Ends p

theorem Ends.bind {p : α → Prop} {q : β → Prop} {d : Dialogue α} {f : α → Dialogue β}
    (h : d.Ends p) (hf : ∀ a, p a → (f a).Ends q) : (d >>= f).Ends q := by
  induction d with
  | done a => exact hf a h
  | ask question next ih => exact fun answer => ih answer (h answer)

theorem ends_true (d : Dialogue α) : d.Ends fun _ => True := by
  induction d with
  | done a => trivial
  | ask question next ih => exact ih

theorem Ends.of_bind {q : β → Prop} (d : Dialogue α) {f : α → Dialogue β}
    (hf : ∀ a, (f a).Ends q) : (d >>= f).Ends q :=
  d.ends_true.bind fun a _ => hf a

end Dialogue

namespace Bindings

variable {α β : Type}

def after (b : Bindings) (x : BindM α) : α × Bindings := Id.run (x.run b)

@[simp] theorem after_pure (b : Bindings) (a : α) : b.after (pure a) = (a, b) := rfl

@[simp] theorem after_bind (b : Bindings) (x : BindM α) (f : α → BindM β) :
    b.after (x >>= f) = (b.after x).2.after (f (b.after x).1) := rfl

theorem after_get (b : Bindings) : b.after get = (b, b) := rfl

theorem after_onTable (b : Bindings) (f : TypeTable → TypeId × TypeTable) :
    b.after (onTable f) = ((f b.table).1, { b with table := (f b.table).2 }) := rfl

theorem after_read (b : Bindings) (read : TypeTable → α) :
    b.after (do return read (← get).table) = (read b.table, b) := rfl

end Bindings

namespace Binder

variable {α β : Type} {bind : Binder}

theorem after_run_ask (b : Bindings) (q : Question) (next : q.Answer → Dialogue α) :
    b.after (bind.run (.ask q next)) =
      (b.after (bind.answer q)).2.after (bind.run (next (b.after (bind.answer q)).1)) := rfl

theorem after_answer_members (bind : Binder) (b : Bindings) (type : TypeId) :
    b.after (bind.answer (.members type)) = (b.table.members type, b) :=
  Bindings.after_read b fun t => t.members type

theorem after_answer_keyNames (bind : Binder) (b : Bindings) (keys : TypeId) :
    b.after (bind.answer (.keyNames keys)) = (b.table.keyNames keys, b) :=
  Bindings.after_read b fun t => t.keyNames keys

theorem after_answer_display (bind : Binder) (b : Bindings) (type : TypeId) :
    b.after (bind.answer (.display type)) = (b.table.display type, b) :=
  Bindings.after_read b fun t => t.display type

theorem after_run_of_answer {b c : Bindings} {q : Question} {a : q.Answer}
    (hq : b.after (bind.answer q) = (a, c)) (next : q.Answer → Dialogue α) :
    b.after (bind.run (.ask q next)) = c.after (bind.run (next a)) := by
  rw [after_run_ask, hq]

theorem after_run_bind (b : Bindings) (d : Dialogue α) (f : α → Dialogue β) :
    b.after (bind.run (d >>= f)) =
      (b.after (bind.run d)).2.after (bind.run (f (b.after (bind.run d)).1)) := by
  change b.after (bind.run (d.bind f)) = _
  induction d generalizing b with
  | done a => rfl
  | ask q next ih => exact ih _ _

theorem after_run_map (b : Bindings) (d : Dialogue α) (f : α → β) :
    b.after (bind.run (f <$> d)) = (f (b.after (bind.run d)).1, (b.after (bind.run d)).2) :=
  after_run_bind b d fun a => .done (f a)

theorem ends_after (bind : Binder) {p : α → Prop} {d : Dialogue α} (h : d.Ends p)
    (b : Bindings) :
    p (b.after (bind.run d)).1 := by
  induction d generalizing b with
  | done a => exact h
  | ask q next ih => exact ih _ (h _) _

def Kept (R : Bindings → Bindings → Prop) (x : BindM α) : Prop := ∀ b, R b (b.after x).2

section Principle

variable {R : Bindings → Bindings → Prop} (refl : ∀ b, R b b)
  (trans : ∀ {b c d}, R b c → R c d → R b d)
  (add : ∀ (b : Bindings) f, f.Proper → R b { b with table := (b.table.addForm f).2 })
  (intern : ∀ (b : Bindings) f, f.Proper → R b { b with table := (b.table.intern f).2 })

include refl add intern in
theorem kept_answer (hbind : ∀ scope n, Kept R (bind scope n)) (q : Question) :
    Kept R (bind.answer q) := by
  intro b
  cases q with
  | type scope n => exact hbind scope n b
  | add f plain => exact add b f (Form.proper_of_isPlain plain)
  | intern f plain => exact intern b f (Form.proper_of_isPlain plain)
  | union types =>
    change R b { b with table := (b.table.union types).2 }
    obtain ⟨-, heq⟩ | ⟨one, -, heq⟩ | ⟨htwo, heq⟩ := b.table.union_cases types
    · rw [heq]
      exact intern b _ trivial
    · rw [heq]
      exact refl b
    · rw [heq]
      exact intern b _ ⟨TypeTable.nodup_eraseDups _, htwo⟩
  | intersection types =>
    change R b { b with table := (b.table.intersection types).2 }
    obtain ⟨one, -, heq⟩ | heq := b.table.intersection_cases types
    · rw [heq]
      exact refl b
    · rw [heq]
      exact add b _ trivial
  | members type => exact refl b
  | keyNames keys => exact refl b
  | display type => exact refl b

include refl trans add intern in
theorem kept_run (hbind : ∀ scope n, Kept R (bind scope n)) (d : Dialogue α) :
    Kept R (bind.run d) := by
  induction d with
  | done a => exact refl
  | ask q next ih =>
    intro b
    exact trans (kept_answer refl add intern hbind q b) (ih _ _)

end Principle

theorem after_interfaceType (b : Bindings) (d : Declaration) :
    b.after (bind.interfaceType d) =
      let (object, c) := (b.reserve d).after (bind.run d.interfaceBody)
      (b.table.size, c.fillInterface b.table.size object) := rfl

theorem after_aliasType (b : Bindings) (d : Declaration) :
    b.after (bind.aliasType d) =
      let (body, c) := (b.reserve d).after (bind.run d.aliasBody)
      (b.table.size, c.fillAlias b.table.size d.name body) := rfl

theorem after_declarationType (b : Bindings) (d : Declaration) :
    b.after (bind.declarationType d) = match b.declared.lookup d.key with
      | some type => (type, b)
      | none => b.after (bind.newType d) := by
  rw [declarationType, Bindings.after_bind, Bindings.after_get]
  dsimp only
  cases b.declared.lookup d.key <;> rfl

theorem after_declarationType_of_some {b : Bindings} {d : Declaration} {type : TypeId}
    (h : b.declared.lookup d.key = some type) :
    b.after (bind.declarationType d) = (type, b) := by
  rw [after_declarationType, h]

end Binder

namespace Declaration

def IsLeaf (d : Declaration) : Prop :=
  d.node.kind ≠ .interfaceDeclaration ∧ d.node.kind ≠ .typeAliasDeclaration

end Declaration

namespace Binder

section New

variable (bind : Binder) {b : Bindings} {d : Declaration} (hl : b.declared.lookup d.key = none)

include hl

theorem after_declarationType_of_interface (hk : d.node.kind = .interfaceDeclaration) :
    b.after (bind.declarationType d) = b.after (bind.interfaceType d) := by
  rw [after_declarationType, hl]
  simp only [newType, hk]

theorem after_declarationType_of_alias (hk : d.node.kind = .typeAliasDeclaration) :
    b.after (bind.declarationType d) = b.after (bind.aliasType d) := by
  rw [after_declarationType, hl]
  simp only [newType, hk]

theorem after_declarationType_of_leaf (hleaf : d.IsLeaf) :
    b.after (bind.declarationType d) = (b.table.size, b.declare d d.leafForm) := by
  rw [after_declarationType, hl]
  dsimp only
  rw [newType]
  split
  · next hk => exact absurd hk hleaf.1
  · next hk => exact absurd hk hleaf.2
  · rfl

/-- What binding a declaration for the first time does: it reserves, binds and fills its type, or
adds it at once. -/
theorem after_declarationType_of_none :
    (d.node.kind = .interfaceDeclaration ∧
      b.after (bind.declarationType d) = b.after (bind.interfaceType d)) ∨
    (d.node.kind = .typeAliasDeclaration ∧
      b.after (bind.declarationType d) = b.after (bind.aliasType d)) ∨
    (d.IsLeaf ∧ b.after (bind.declarationType d) = (b.table.size, b.declare d d.leafForm)) := by
  by_cases hinterface : d.node.kind = .interfaceDeclaration
  · exact .inl ⟨hinterface, after_declarationType_of_interface bind hl hinterface⟩
  by_cases halias : d.node.kind = .typeAliasDeclaration
  · exact .inr (.inl ⟨halias, after_declarationType_of_alias bind hl halias⟩)
  · have hleaf : d.IsLeaf := ⟨hinterface, halias⟩
    exact .inr (.inr ⟨hleaf, after_declarationType_of_leaf bind hl hleaf⟩)

end New

end Binder

namespace Program

open Bindings Binder

variable {P : Program} {R : Bindings → Bindings → Prop}

theorem has_of_meaning (P : Program) (scope : Scope) (n : Node) :
    (Dialogue.meaning P scope n).Ends fun m => ∀ d, m = .declaration d → P.Has d := by
  have htype : ∀ x : Dialogue TypeId,
      (Meaning.type <$> x).Ends fun m => ∀ d, m = .declaration d → P.Has d := by
    intro x
    apply Dialogue.Ends.of_bind
    intro type d hd
    cases hd
  have hnamed : ∀ name args, (Dialogue.namedType P scope name args).Ends
      fun m => ∀ d, m = .declaration d → P.Has d := by
    intro name args
    rw [Dialogue.namedType]
    split
    · exact htype _
    split
    · next e he =>
      intro d hd
      cases hd
      exact has_of_resolve? he
    · exact htype _
  rw [Dialogue.meaning]
  split
  · exact hnamed _ _
  · exact hnamed _ _
  · apply Dialogue.Ends.of_bind
    intro args
    split
    · exact htype _
    split
    · exact htype _
    · exact hnamed _ _
  · exact htype _

theorem after_nodeType_cases (P : Program) (bind : Binder) (scope : Scope) (n : Node)
    (b : Bindings) :
    (∃ id, (b.after (bind.run (.meaning P scope n))).1 = .type id ∧
      b.after (bind.nodeType P scope n) = (id, (b.after (bind.run (.meaning P scope n))).2)) ∨
    ∃ d, (b.after (bind.run (.meaning P scope n))).1 = .declaration d ∧ P.Has d ∧
      b.after (bind.nodeType P scope n) =
        (b.after (bind.run (.meaning P scope n))).2.after (bind.declarationType d) := by
  rw [nodeType, Bindings.after_bind]
  cases hm : (b.after (bind.run (.meaning P scope n))).1 with
  | type id => exact .inl ⟨id, rfl, rfl⟩
  | declaration d =>
    exact .inr ⟨d, rfl, ends_after bind (has_of_meaning P scope n) b d hm, rfl⟩

/-- A relation that holds over every addition to the table and over every declaration that is bound
for the first time, if it holds over the binding of its body. -/
structure Closed (P : Program) (R : Bindings → Bindings → Prop) : Prop where
  refl : ∀ b, R b b
  trans : ∀ {b c d}, R b c → R c d → R b d
  add : ∀ (b : Bindings) f, f.Proper → R b { b with table := (b.table.addForm f).2 }
  intern : ∀ (b : Bindings) f, f.Proper → R b { b with table := (b.table.intern f).2 }
  leaf : ∀ b d, P.Has d → b.declared.lookup d.key = none → d.IsLeaf →
    R b (b.declare d d.leafForm)
  interface : ∀ levels b d, P.Has d → b.declared.lookup d.key = none →
    d.node.kind = .interfaceDeclaration →
    let r := (b.reserve d).after ((P.binderAt levels).run d.interfaceBody)
    R (b.reserve d) r.2 → R b (r.2.fillInterface b.table.size r.1)
  typeAlias : ∀ levels b d, P.Has d → b.declared.lookup d.key = none →
    d.node.kind = .typeAliasDeclaration →
    let r := (b.reserve d).after ((P.binderAt levels).run d.aliasBody)
    R (b.reserve d) r.2 → R b (r.2.fillAlias b.table.size d.name r.1)

namespace Closed

theorem kept_declarationType (h : P.Closed R) {levels : Nat}
    (hbind : ∀ scope n, Kept R (P.binderAt levels scope n)) {d : Declaration} (hd : P.Has d) :
    Kept R ((P.binderAt levels).declarationType d) := by
  intro b
  have hrun : ∀ {α : Type} (x : Dialogue α), Kept R ((P.binderAt levels).run x) :=
    fun x => kept_run h.refl h.trans h.add h.intern hbind x
  cases hl : b.declared.lookup d.key with
  | some type =>
    rw [after_declarationType_of_some hl]
    exact h.refl b
  | none =>
    obtain ⟨hk, heq⟩ | ⟨hk, heq⟩ | ⟨hleaf, heq⟩ :=
      after_declarationType_of_none (P.binderAt levels) hl
    · rw [heq, after_interfaceType]
      exact h.interface levels b d hd hl hk (hrun _ _)
    · rw [heq, after_aliasType]
      exact h.typeAlias levels b d hd hl hk (hrun _ _)
    · rw [heq]
      exact h.leaf b d hd hl hleaf

theorem kept_binderAt (h : P.Closed R) (levels : Nat) (scope : Scope) (n : Node) :
    Kept R (P.binderAt levels scope n) := by
  induction levels generalizing scope n with
  | zero =>
    intro b
    exact h.intern b _ trivial
  | succ levels ih =>
    intro b
    have hrun := kept_run h.refl h.trans h.add h.intern ih (Dialogue.meaning P scope n) b
    rw [binderAt]
    obtain ⟨id, -, heq⟩ | ⟨d, -, hd, heq⟩ :=
      after_nodeType_cases P (P.binderAt levels) scope n b
    · rw [heq]
      exact hrun
    · rw [heq]
      exact h.trans hrun (h.kept_declarationType ih hd _)

theorem kept_answer (h : P.Closed R) (levels : Nat) (q : Question) :
    Kept R ((P.binderAt levels).answer q) :=
  Binder.kept_answer h.refl h.add h.intern (h.kept_binderAt levels) q

theorem kept_run (h : P.Closed R) (levels : Nat) {α : Type} (d : Dialogue α) :
    Kept R ((P.binderAt levels).run d) :=
  Binder.kept_run h.refl h.trans h.add h.intern (h.kept_binderAt levels) d

end Closed

inductive Call (P : Program)
  | typeAt (file : FileId) (n : Node)
  | declaredType (d : Declaration) (hd : P.Has d)

def perform : P.Call → BindM TypeId
  | .typeAt file n => P.typeOf file n
  | .declaredType d _ => P.typeOfDeclaration d

def bindingsAfter (P : Program) (calls : List P.Call) : Bindings :=
  calls.foldl (fun b call => (b.after (P.perform call)).2) {}

theorem Closed.kept_perform (h : P.Closed R) (call : P.Call) : Kept R (P.perform call) := by
  cases call with
  | typeAt file n => exact h.kept_binderAt bindLevels _ n
  | declaredType d hd => exact h.kept_declarationType (h.kept_binderAt bindLevels) hd

end Program

end PropSchema
