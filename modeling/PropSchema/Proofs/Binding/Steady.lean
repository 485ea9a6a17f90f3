import PropSchema.Proofs.Binding.History

/-!
Steady readings. While declarations are being bound, their slots are open, and what is read of a
type may change when they are filled. A reading is steady if it cannot change, however the open slots
are completed; only the syntax of a declaration can tell beforehand that its form will be solid.
-/

namespace PropSchema

open Bindings

def Form.isSolid : Form → Bool
  | .object _ | .function _ | .tuple _ | .array _ => true
  | _ => false

def Form.isObject : Form → Bool
  | .object _ => true
  | _ => false

def Node.isSolid (n : Node) : Bool :=
  match n.kind with
  | .objectType | .functionType | .tupleType | .arrayType => true
  | _ => false

def Declaration.isSolid (d : Declaration) : Bool :=
  d.node.kind == .interfaceDeclaration ||
    d.node.kind == .typeAliasDeclaration && (d.node.child? .value).any (·.isSolid)

namespace Program

variable (P : Program)

/-- A table with the closed entries of the bindings, in which their solid declarations are solid. -/
structure Completes (b : Bindings) (u : TypeTable) : Prop where
  entry_eq : ∀ {id}, ¬ b.table.IsOpen id → u.entry id = b.table.entry id
  solid : ∀ {d slot}, P.Has d → d.isSolid → b.declared.lookup d.key = some slot →
    (u.entry slot).form.isSolid

/-- What is read for a question is the same in all completions. -/
def Steady (b : Bindings) : Question → Prop
  | .union types => ∀ u, P.Completes b u →
    (types.flatMap u.constituents).eraseDups = (types.flatMap b.table.constituents).eraseDups
  | .intersection types => ∀ u, P.Completes b u →
    types.flatMap u.factors = types.flatMap b.table.factors
  | .members type => ∀ u, P.Completes b u → u.members type = b.table.members type
  | .keyNames keys => ∀ u, P.Completes b u → u.keyNames keys = b.table.keyNames keys
  | .display type => ∀ u, P.Completes b u → u.display type = b.table.display type
  | _ => True

def SteadyForm (b : Bindings) (type : TypeId) : Prop :=
  ∀ u, P.Completes b u → u.form type = b.table.form type

def steadiness : Watch := ⟨P.Steady, P.SteadyForm, fun _ _ => True⟩

variable {P} {b : Bindings} {x : TypeId}

theorem steadyForm_of_ne_pending (h : b.table.form x ≠ .pending) : P.SteadyForm b x :=
  fun _ hu => TypeTable.formAt_eq_of_closed hu.entry_eq h

/-- A union of types with a known form, or of solid declarations that are still open, is steady. -/
theorem steady_union {types : List TypeId} (h : ∀ x ∈ types, b.table.form x ≠ .pending ∨
    ∃ d, P.Has d ∧ d.isSolid ∧ b.declared.lookup d.key = some x) : P.Steady b (.union types) := by
  intro u hu
  have hsame : ∀ x ∈ types, u.constituents x = b.table.constituents x := by
    intro x hx
    by_cases hform : b.table.form x = .pending
    · obtain hne | ⟨d, hd, hsolid, hslot⟩ := h x hx
      · exact absurd hform hne
      · have hentry := hu.solid hd hsolid hslot
        have hu' : u.form x = (u.entry x).form := by
          apply TypeTable.formAt_of_ne_pending
          intro heq
          rw [heq] at hentry
          cases hentry
        rw [TypeTable.constituents, TypeTable.constituents, hform, hu']
        cases hf : (u.entry x).form with
        | union parts | primitive p =>
          rw [hf] at hentry
          cases hentry
        | _ => rfl
    · rw [TypeTable.constituents, TypeTable.constituents, steadyForm_of_ne_pending hform u hu]
  rw [List.flatMap_def, List.flatMap_def, List.map_congr_left hsame]

theorem steady_members (h : (b.table.form x).isObject) : P.Steady b (.members x) := by
  intro u hu
  have hform : u.form x = b.table.form x := by
    apply steadyForm_of_ne_pending _ u hu
    intro heq
    rw [heq] at h
    cases h
  cases hf : b.table.form x with
  | object o =>
    rw [hf] at hform
    rw [TypeTable.members_of_object hform, TypeTable.members_of_object hf]
  | _ =>
    rw [hf] at h
    cases h

section Solid

open Binder Dialogue

variable {levels : Nat} {scope : Scope} {n : Node}

theorem isSolid_add (bind : Binder) (b : Bindings) {f : Form} (plain : f.isPlain) (h : f.isSolid) :
    let r := b.after (bind.run (add f plain))
    (r.2.table.entry r.1).form.isSolid := by
  change ((b.table.addForm f).2.entry b.table.size).form.isSolid
  rw [TypeTable.entry_addForm_self]
  exact h

theorem isSolid_intern (bind : Binder) (hb : b.Regular) {f : Form} (plain : f.isPlain)
    (h : f.isSolid) :
    let r := b.after (bind.run (intern f plain))
    (r.2.table.entry r.1).form.isSolid := by
  change ((b.table.intern f).2.entry (b.table.intern f).1).form.isSolid
  rw [(hb.wellMade.intern_sound.entry_intern f).2]
  exact h

theorem isSolid_structuralType (P : Program) (levels : Nat) (hb : b.Regular) (hn : n.isSolid) :
    let r := b.after ((P.binderAt levels).run (structuralType scope n))
    (r.2.table.entry r.1).form.isSolid := by
  rw [Node.isSolid] at hn
  split at hn
  · next hk =>
    simp only [structuralType, hk, after_run_bind]
    exact isSolid_add _ _ _ rfl
  · next hk =>
    simp only [structuralType, hk, after_run_bind]
    exact isSolid_add _ _ _ rfl
  · next hk =>
    simp only [structuralType, hk, after_run_bind]
    exact isSolid_add _ _ _ rfl
  · next hk =>
    simp only [structuralType, hk, after_run_bind]
    exact isSolid_intern _ (hb.run P levels _) _ rfl
  · cases hn

theorem meaning_of_isSolid (P : Program) (scope : Scope) (hn : n.isSolid) :
    meaning P scope n = .type <$> structuralType scope n := by
  rw [Node.isSolid] at hn
  split at hn
  · next hk => rw [meaning, hk]
  · next hk => rw [meaning, hk]
  · next hk => rw [meaning, hk]
  · next hk => rw [meaning, hk]
  · cases hn

theorem isSolid_binderAt (P : Program) (levels : Nat) (hb : b.Regular) (scope : Scope)
    (hn : n.isSolid) :
    let r := b.after (P.binderAt (levels + 1) scope n)
    (r.2.table.entry r.1).form.isSolid := by
  have heq : b.after (P.binderAt (levels + 1) scope n) =
      b.after ((P.binderAt levels).run (structuralType scope n)) := by
    rw [binderAt, nodeType, meaning_of_isSolid P scope hn, Bindings.after_bind, after_run_map]
    rfl
  rw [heq]
  exact isSolid_structuralType P levels hb hn

theorem isSolid_interfaceType (levels : Nat) (b : Bindings) (d : Declaration) :
    ((b.after ((P.binderAt levels).interfaceType d)).2.table.entry b.table.size).form.isSolid := by
  have hgrows := P.kept_grows_run levels d.interfaceBody (b.reserve d)
  change ((TypeTable.setForm _ b.table.size (.object _)).entry b.table.size).form.isSolid
  rw [TypeTable.entry_setForm_self]
  · rfl
  · exact Nat.lt_of_lt_of_le (size_lt_reserve b d) hgrows.table.size_le

theorem isSolid_aliasType {w : Watch} (hb : b.Regular) {d : Declaration}
    (hd : (d.node.child? .value).any (·.isSolid))
    (hw : (P.binderAt levels).Watched w (P.WatchedAt w levels) (some d.key) d.aliasBody
      (b.reserve d)) :
    ((b.after ((P.binderAt levels).aliasType d)).2.table.entry b.table.size).form.isSolid := by
  obtain ⟨n, hvalue, hn⟩ := (Option.any_eq_true _ _).1 hd
  have hbody : d.aliasBody = Dialogue.typeOf d.scope n := by
    rw [Declaration.aliasBody, hvalue, orAny]
  have hgrows := P.kept_grows_run levels d.aliasBody (b.reserve d)
  rw [after_aliasType]
  rw [hbody] at hw hgrows ⊢
  cases levels with
  | zero => exact hw.1.elim
  | succ levels =>
    have hsolid := isSolid_binderAt P levels (hb.reserve d) d.scope hn
    change Grows _ ((b.reserve d).after (P.binderAt (levels + 1) d.scope n)).2 at hgrows
    change ((fillAlias ((b.reserve d).after (P.binderAt (levels + 1) d.scope n)).2 _ _
      ((b.reserve d).after (P.binderAt (levels + 1) d.scope n)).1).table.entry _).form.isSolid
    generalize (b.reserve d).after (P.binderAt (levels + 1) d.scope n) = r at hsolid hgrows ⊢
    dsimp only at hsolid
    have hne : (r.2.table.entry r.1).form ≠ .pending := by
      intro heq
      rw [heq] at hsolid
      cases hsolid
    have hslot : r.1 ≠ b.table.size := by
      intro heq
      rw [heq, hgrows.isOpen] at hne
      exact hne rfl
    rw [fillAlias, if_neg hslot, TypeTable.entry_setAlias_self, TypeTable.form,
      TypeTable.formAt_of_ne_pending hne]
    · exact hsolid
    · exact Nat.lt_of_lt_of_le (size_lt_reserve b d) hgrows.table.size_le

theorem BoundUnder.isSolid {w : Watch} {e : Bindings} {d : Declaration} (h : P.BoundUnder w e d)
    (hd : d.isSolid) {slot : TypeId} (hslot : e.declared.lookup d.key = some slot) :
    (e.table.entry slot).form.isSolid := by
  obtain ⟨levels, b, hb, hl, hwatched, he⟩ := h
  obtain ⟨-, hdeclared, hlt⟩ := after_declarationType_new (P.closed_grows.kept_binderAt levels) hl
  obtain rfl : b.table.size = slot := Option.some.inj ((he.declared hdeclared).symm.trans hslot)
  have hsolid : ((b.after ((P.binderAt levels).declarationType d)).2.table.entry
      b.table.size).form.isSolid := by
    obtain ⟨hk, heq⟩ | ⟨hk, heq⟩ | ⟨hleaf, -⟩ := after_declarationType_of_none _ hl
    · rw [heq]
      exact isSolid_interfaceType levels b d
    · rw [heq]
      apply isSolid_aliasType hb _ (hwatched.2 hk).1
      simpa [Declaration.isSolid, hk] using hd
    · simp [Declaration.isSolid, hleaf.1, hleaf.2] at hd
  rw [he.table.entry_eq hlt]
  · exact hsolid
  · intro hopen
    rw [hopen] at hsolid
    cases hsolid

end Solid

end Program

def Watch.known (solids : List Declaration) : Watch where
  question b
    | .union types => ∀ x ∈ types, b.table.form x ≠ .pending ∨
      ∃ d ∈ solids, b.declared.lookup d.key = some x
    | .members x => (b.table.form x).isObject
    | .intersection _ | .keyNames _ | .display _ => False
    | _ => True
  target b x := b.table.form x ≠ .pending
  made _ _ := True

theorem Watch.implies_known {P : Program} {solids : List Declaration}
    (h : ∀ d ∈ solids, P.Has d ∧ d.isSolid) : (known solids).Implies P.steadiness where
  question {b q} hq := by
    cases q with
    | union types =>
      refine Program.steady_union fun x hx => (hq x hx).imp_right ?_
      rintro ⟨d, hd, hslot⟩
      exact ⟨d, (h d hd).1, (h d hd).2, hslot⟩
    | members x => exact Program.steady_members hq
    | intersection | keyNames | display => exact hq.elim
    | _ => trivial
  target hx := Program.steadyForm_of_ne_pending hx
  made _ := trivial

namespace Watch

variable (solids : List Declaration) (b : Bindings)

instance decidableKnown : (q : Question) → Decidable ((known solids).question b q)
  | .union types => inferInstanceAs (Decidable (∀ x ∈ types, _ ∨ _))
  | .members x => inferInstanceAs (Decidable ((b.table.form x).isObject = true))
  | .intersection _ | .keyNames _ | .display _ => .isFalse id
  | .type _ _ | .add _ _ | .intern _ _ => .isTrue trivial

instance (x : TypeId) : Decidable ((known solids).target b x) :=
  inferInstanceAs (Decidable (b.table.form x ≠ .pending))

instance (owner : Owner) (x : TypeId) : Decidable ((known solids).made owner x) := .isTrue trivial

end Watch

end PropSchema
