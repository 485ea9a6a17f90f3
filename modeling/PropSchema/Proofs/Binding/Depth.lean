import PropSchema.Proofs.Binding.Run

namespace PropSchema

open Bindings

abbrev CountM := StateT Nat BindM

namespace Program

def countedAt (P : Program) : Nat → Binder CountM
  | 0 => fun _ _ => onTable (·.primitive .any)
  | fuel + 1 => fun scope n => do
    if bindLevels ≤ (← getThe Nat) then onTable (·.primitive .any)
    else
      modifyThe Nat (· + 1)
      let id ← (P.countedAt fuel).nodeType P scope n
      modifyThe Nat (· - 1)
      return id

end Program

namespace Binder

variable {α β : Type} {depth : Nat}

/-- From this depth, the step with a counter does what the other step does and is back at the same
depth after it. -/
def Counts (depth : Nat) (x : CountM α) (y : BindM α) : Prop :=
  x.run depth = (fun a => (a, depth)) <$> y

theorem counts_pure (a : α) : Counts depth (pure a) (pure a) := rfl

theorem Counts.bind {x : CountM α} {y : BindM α} {f : α → CountM β} {g : α → BindM β}
    (h : Counts depth x y) (hf : ∀ a, Counts depth (f a) (g a)) :
    Counts depth (x >>= f) (y >>= g) := by
  rw [Counts, StateT.run_bind, h]
  simp only [map_eq_pure_bind, bind_assoc, pure_bind]
  congr 1
  funext a
  rw [hf a]
  simp only [map_eq_pure_bind]

theorem counts_onTable (f : TypeTable → TypeId × TypeTable) :
    Counts depth (onTable f) (onTable f) := rfl

theorem counts_getThe : Counts depth (getThe Bindings) (getThe Bindings) := rfl

theorem counts_modifyGet (f : Bindings → α × Bindings) :
    Counts depth (modifyGetThe Bindings f) (modifyGetThe Bindings f) := rfl

section

variable {counted : Binder CountM} {bind : Binder}
  (h : ∀ scope n, Counts depth (counted scope n) (bind scope n))

include h

theorem counts_answer (q : Question) : Counts depth (counted.answer q) (bind.answer q) := by
  cases q with
  | type scope n => exact h scope n
  | _ => rfl

theorem counts_run (d : Dialogue α) : Counts depth (counted.run d) (bind.run d) := by
  induction d with
  | done a => exact counts_pure a
  | ask q next ih => exact (counts_answer h q).bind ih

theorem counts_interfaceType (d : Declaration) :
    Counts depth (counted.interfaceType d) (bind.interfaceType d) := by
  refine (counts_modifyGet _).bind fun slot => ?_
  refine (counts_run h d.interfaceBody).bind fun object => ?_
  exact (counts_modifyGet _).bind fun _ => counts_pure slot

theorem counts_aliasType (d : Declaration) :
    Counts depth (counted.aliasType d) (bind.aliasType d) := by
  refine (counts_modifyGet _).bind fun slot => ?_
  refine (counts_run h d.aliasBody).bind fun body => ?_
  exact (counts_modifyGet _).bind fun _ => counts_pure slot

theorem counts_newType (d : Declaration) :
    Counts depth (counted.newType d) (bind.newType d) := by
  rw [newType, newType]
  split
  · exact counts_interfaceType h d
  · exact counts_aliasType h d
  · exact counts_modifyGet _

theorem counts_declarationType (d : Declaration) :
    Counts depth (counted.declarationType d) (bind.declarationType d) := by
  refine counts_getThe.bind fun b => ?_
  split
  · exact counts_pure _
  · exact counts_newType h d

theorem counts_nodeType (P : Program) (scope : Scope) (n : Node) :
    Counts depth (counted.nodeType P scope n) (bind.nodeType P scope n) := by
  refine (counts_run h (.meaning P scope n)).bind fun m => ?_
  cases m with
  | type id => exact counts_pure id
  | declaration d => exact counts_declarationType h d

end

end Binder

namespace Program

variable {P : Program} {depth fuel : Nat} {scope : Scope} {n : Node}

theorem run_getThe (depth : Nat) :
    (getThe Nat : CountM Nat).run depth = (pure (depth, depth) : BindM (Nat × Nat)) := rfl

theorem run_countedAt_of_le (h : bindLevels ≤ depth) :
    (P.countedAt fuel scope n).run depth =
      (onTable (·.primitive .any) : CountM TypeId).run depth := by
  cases fuel with
  | zero => rfl
  | succ fuel =>
    rw [countedAt, StateT.run_bind, run_getThe, pure_bind, if_pos h]

theorem run_countedAt_of_lt (h : depth < bindLevels) :
    (P.countedAt (fuel + 1) scope n).run depth =
      (fun r => (r.1, r.2 - 1)) <$> ((P.countedAt fuel).nodeType P scope n).run (depth + 1) := by
  rw [countedAt, StateT.run_bind, run_getThe, pure_bind, if_neg (Nat.not_le_of_lt h)]
  rfl

theorem counts_countedAt (hfuel : bindLevels ≤ depth + fuel) (scope : Scope) (n : Node) :
    Binder.Counts depth (P.countedAt fuel scope n) (P.binderAt (bindLevels - depth) scope n) := by
  induction fuel generalizing depth scope n with
  | zero =>
    have hlevels : bindLevels - depth = 0 := Nat.sub_eq_zero_of_le hfuel
    rw [hlevels]
    exact Binder.counts_onTable (·.primitive .any)
  | succ fuel ih =>
    by_cases hdepth : bindLevels ≤ depth
    · have hlevels : bindLevels - depth = 0 := Nat.sub_eq_zero_of_le hdepth
      rw [hlevels, Binder.Counts, run_countedAt_of_le hdepth]
      rfl
    · have hlevels : bindLevels - depth = bindLevels - (depth + 1) + 1 := by omega
      have hfuel' : bindLevels ≤ depth + 1 + fuel := by omega
      have hnode := Binder.counts_nodeType (ih hfuel') P scope n
      rw [hlevels, Binder.Counts, run_countedAt_of_lt (Nat.lt_of_not_le hdepth), hnode, ← comp_map]
      rfl

end Program

end PropSchema
