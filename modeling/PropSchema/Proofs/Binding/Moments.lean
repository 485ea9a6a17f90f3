import Mathlib.Data.List.Induction
import Mathlib.Logic.Relation
import PropSchema.Proofs.Binding.History

namespace PropSchema

open Bindings Relation

inductive Task
  | node (levels : Nat) (scope : Scope) (n : Node)
  | declaration (levels : Nat) (d : Declaration)

namespace Binder

variable {α β : Type} {bind : Binder} {scope : Scope} {n : Node} {b s : Bindings}

inductive Asks (bind : Binder) (scope : Scope) (n : Node) (s : Bindings) :
    Dialogue α → Bindings → Prop
  | now {next : TypeId → Dialogue α} : Asks bind scope n s (.ask (.type scope n) next) s
  | later {q : Question} {next : q.Answer → Dialogue α} {b : Bindings} :
    Asks bind scope n s (next (b.after (bind.answer q)).1) (b.after (bind.answer q)).2 →
    Asks bind scope n s (.ask q next) b

theorem Asks.bind_left {d : Dialogue α} (h : Asks bind scope n s d b) (f : α → Dialogue β) :
    Asks bind scope n s (d >>= f) b := by
  induction h with
  | now => exact .now
  | later _ ih => exact .later ih

theorem Asks.bind_right {d : Dialogue α} {f : α → Dialogue β}
    (h : Asks bind scope n s (f (b.after (bind.run d)).1) (b.after (bind.run d)).2) :
    Asks bind scope n s (d >>= f) b := by
  induction d generalizing b with
  | done a => exact h
  | ask q next ih => exact .later (ih _ h)

theorem Asks.grows (hbind : ∀ scope n, Kept Grows (bind scope n)) {d : Dialogue α}
    (h : Asks bind scope n s d b) : (s.after (bind scope n)).2.Grows (b.after (bind.run d)).2 := by
  induction h with
  | now => exact kept_grows hbind _ _
  | later _ ih => exact ih

theorem exists_asks {d : Dialogue α} {key : FileId × Nat} (hold : b.declared.lookup key = none)
    (hnew : (b.after (bind.run d)).2.declared.lookup key ≠ none) :
    ∃ scope n s, Asks bind scope n s d b ∧ s.declared.lookup key = none ∧
      (s.after (bind scope n)).2.declared.lookup key ≠ none := by
  induction d generalizing b with
  | done a => exact absurd hold hnew
  | ask q next ih =>
    by_cases hq : (b.after (bind.answer q)).2.declared.lookup key = none
    · obtain ⟨scope, n, s, hasks, hs⟩ := ih _ hq hnew
      exact ⟨scope, n, s, .later hasks, hs⟩
    · cases q with
      | type scope n => exact ⟨scope, n, b, .now, hold, hq⟩
      | _ => exact absurd hold hq

end Binder

namespace Program

open Binder

variable {P : Program} {levels : Nat} {d : Declaration} {b e : Bindings}

/-- A node leads to the nodes that its dialogue asks for and to the declaration that it denotes, and
a declaration that is not bound yet to the nodes that its body asks for. -/
inductive Invokes (P : Program) : Task × Bindings → Task × Bindings → Prop
  | node {levels scope n b scope' n' s} :
    (P.binderAt levels).Asks scope' n' s (.meaning P scope n) b →
    Invokes P (.node (levels + 1) scope n, b) (.node levels scope' n', s)
  | declaration {levels scope n b d s} :
    b.after ((P.binderAt levels).run (.meaning P scope n)) = (.declaration d, s) →
    Invokes P (.node (levels + 1) scope n, b) (.declaration levels d, s)
  | interface {levels d b scope n s} : b.declared.lookup d.key = none →
    d.node.kind = .interfaceDeclaration →
    (P.binderAt levels).Asks scope n s d.interfaceBody (b.reserve d) →
    Invokes P (.declaration levels d, b) (.node levels scope n, s)
  | typeAlias {levels d b scope n s} : b.declared.lookup d.key = none →
    d.node.kind = .typeAliasDeclaration →
    (P.binderAt levels).Asks scope n s d.aliasBody (b.reserve d) →
    Invokes P (.declaration levels d, b) (.node levels scope n, s)

def Opens (P : Program) (origin : Task × Bindings) (d : Declaration) (e : Bindings) : Prop :=
  ∃ levels s, ReflTransGen P.Invokes origin (.declaration levels d, s) ∧
    s.declared.lookup d.key = none ∧
    (s.after ((P.binderAt levels).declarationType d)).2.Matures e

theorem Opens.head {origin next : Task × Bindings} (h : P.Opens next d e)
    (hleads : P.Invokes origin next) : P.Opens origin d e := by
  obtain ⟨levels, s, hpasses, hs⟩ := h
  exact ⟨levels, s, .head hleads hpasses, hs⟩

section

variable (hnode : ∀ scope n s, s.declared.lookup d.key = none →
  (s.after (P.binderAt levels scope n)).2.declared.lookup d.key ≠ none →
  (s.after (P.binderAt levels scope n)).2.Matures e → P.Opens (.node levels scope n, s) d e)

include hnode

theorem exists_opens_of_asks {α : Type} {x : Dialogue α} (hold : b.declared.lookup d.key = none)
    (hnew : (b.after ((P.binderAt levels).run x)).2.declared.lookup d.key ≠ none)
    (he : (b.after ((P.binderAt levels).run x)).2.Matures e) :
    ∃ scope n s, (P.binderAt levels).Asks scope n s x b ∧
      P.Opens (.node levels scope n, s) d e := by
  obtain ⟨scope, n, s, hasks, hs, hs'⟩ := exists_asks hold hnew
  have hgrows := hasks.grows (P.closed_grows.kept_binderAt levels)
  exact ⟨scope, n, s, hasks, hnode scope n s hs hs' (hgrows.matures.trans he)⟩

theorem opens_declaration (hP : P.Numbered) (hd : P.Has d) {d' : Declaration} (hd' : P.Has d')
    (hold : b.declared.lookup d.key = none)
    (hnew : (b.after ((P.binderAt levels).declarationType d')).2.declared.lookup d.key ≠ none)
    (he : (b.after ((P.binderAt levels).declarationType d')).2.Matures e) :
    P.Opens (.declaration levels d', b) d e := by
  cases hl : b.declared.lookup d'.key with
  | some id =>
    rw [after_declarationType_of_some hl] at hnew
    exact absurd hold hnew
  | none =>
    by_cases hkey : d.key = d'.key
    · obtain rfl := hP.eq_of_key hd hd' hkey
      exact ⟨levels, b, .refl, hold, he⟩
    have hreserve : (b.reserve d').declared.lookup d.key = none := by
      rwa [reserve, lookup_declare_of_ne _ hkey]
    obtain ⟨hk, heq⟩ | ⟨hk, heq⟩ | ⟨-, heq⟩ := after_declarationType_of_none _ hl
    · rw [heq, after_interfaceType] at hnew he
      obtain ⟨scope, n, s, hasks, hopens⟩ := exists_opens_of_asks hnode hreserve hnew
        (he.of_fillInterface (P.kept_grows_run levels _ _).isOpen)
      exact hopens.head (.interface hl hk hasks)
    · rw [heq, after_aliasType] at hnew he
      rw [declared_fillAlias] at hnew
      obtain ⟨scope, n, s, hasks, hopens⟩ := exists_opens_of_asks hnode hreserve hnew
        (he.of_fillAlias (P.kept_grows_run levels _ _).isOpen)
      exact hopens.head (.typeAlias hl hk hasks)
    · rw [heq, lookup_declare_of_ne _ hkey] at hnew
      exact absurd hold hnew

end

theorem opens_node (hP : P.Numbered) (hd : P.Has d) {scope : Scope} {n : Node}
    (hold : b.declared.lookup d.key = none)
    (hnew : (b.after (P.binderAt levels scope n)).2.declared.lookup d.key ≠ none)
    (he : (b.after (P.binderAt levels scope n)).2.Matures e) :
    P.Opens (.node levels scope n, b) d e := by
  induction levels generalizing b scope n with
  | zero => exact absurd hold hnew
  | succ levels ih =>
    have hnode := fun scope n s => @ih s scope n
    have hgrows := P.closed_grows.kept_binderAt levels
    rw [binderAt] at hnew he
    by_cases hmeaning :
        (b.after ((P.binderAt levels).run (.meaning P scope n))).2.declared.lookup d.key = none
    · obtain ⟨id, -, heq⟩ | ⟨d', hm, hd', heq⟩ :=
        after_nodeType_cases P (P.binderAt levels) scope n b
      · rw [heq] at hnew
        exact absurd hmeaning hnew
      · rw [heq] at hnew he
        exact (opens_declaration hnode hP hd hd' hmeaning hnew he).head
          (.declaration (Prod.ext hm rfl))
    · have hlater := (kept_grows_meantType hgrows
        (b.after ((P.binderAt levels).run (.meaning P scope n))).1 _).matures.trans he
      obtain ⟨scope', n', s, hasks, hopens⟩ := exists_opens_of_asks hnode hold hmeaning hlater
      exact hopens.head (.node hasks)

def Call.task : P.Call → Task
  | .typeAt file n => .node bindLevels ⟨file, []⟩ n
  | .declaredType d _ => .declaration bindLevels d

/-- While the calls are performed, one after the other, the binder comes to the task at `s`. -/
def Meets (P : Program) (calls : List P.Call) (task : Task) (s : Bindings) : Prop :=
  ∃ before call after, calls = before ++ call :: after ∧
    ReflTransGen P.Invokes (call.task, P.bindingsAfter before) (task, s)

theorem Meets.tail {calls : List P.Call} {task task' : Task} {s s' : Bindings}
    (h : P.Meets calls task s) (hleads : P.Invokes (task, s) (task', s')) :
    P.Meets calls task' s' := by
  obtain ⟨before, call, after, hcalls, hpasses⟩ := h
  exact ⟨before, call, after, hcalls, hpasses.tail hleads⟩

theorem bindingsAfter_concat (calls : List P.Call) (call : P.Call) :
    P.bindingsAfter (calls ++ [call]) = ((P.bindingsAfter calls).after (P.perform call)).2 := by
  rw [bindingsAfter, List.foldl_append]
  rfl

theorem opens_perform (hP : P.Numbered) (hd : P.Has d) {call : P.Call}
    (hold : b.declared.lookup d.key = none)
    (hnew : (b.after (P.perform call)).2.declared.lookup d.key ≠ none)
    (he : (b.after (P.perform call)).2.Matures e) : P.Opens (call.task, b) d e := by
  cases call with
  | typeAt file n => exact opens_node hP hd hold hnew he
  | declaredType d' hd' =>
    exact opens_declaration (fun _ _ _ => opens_node hP hd) hP hd hd' hold hnew he

/-- A declaration that is bound after some calls was bound at some moment between them. -/
theorem exists_meets (hP : P.Numbered) (calls : List P.Call) (hd : P.Has d) {slot : TypeId}
    (hslot : (P.bindingsAfter calls).declared.lookup d.key = some slot) :
    ∃ levels s, P.Meets calls (.declaration levels d) s ∧ s.declared.lookup d.key = none ∧
      s.table.size = slot ∧
      (s.after ((P.binderAt levels).declarationType d)).2.Matures (P.bindingsAfter calls) := by
  induction calls using List.reverseRecOn with
  | nil => cases hslot
  | append_singleton calls call ih =>
    have hgrows := P.closed_grows.kept_perform call (P.bindingsAfter calls)
    have hconcat := bindingsAfter_concat calls call
    cases hold : (P.bindingsAfter calls).declared.lookup d.key with
    | some slot' =>
      have hslot' : slot' = slot := by
        have hlater := hgrows.declared hold
        rw [← hconcat, hslot] at hlater
        exact (Option.some.inj hlater).symm
      obtain ⟨levels, s, ⟨before, first, after, hcalls, hpasses⟩, hs, hsize, hlater⟩ :=
        ih (hslot' ▸ hold)
      refine ⟨levels, s, ⟨before, first, after ++ [call], ?_, hpasses⟩, hs, hsize, ?_⟩
      · rw [hcalls, List.append_assoc, List.cons_append]
      · rw [hconcat]
        exact hlater.trans hgrows.matures
    | none =>
      have hnew := Option.ne_none_iff_exists'.2 ⟨slot, hslot⟩
      rw [hconcat] at hnew
      obtain ⟨levels, s, hpasses, hs, hlater⟩ :=
        opens_perform hP hd hold hnew (Grows.refl _).matures
      have hself := (after_declarationType_new (P.closed_grows.kept_binderAt levels) hs).2.1
      rw [← hconcat] at hlater
      refine ⟨levels, s, ⟨calls, call, [], rfl, hpasses⟩, hs, ?_, hlater⟩
      exact Option.some.inj ((hlater.declared hself).symm.trans hslot)

end Program

end PropSchema
