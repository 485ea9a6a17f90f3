import PropSchema.Proofs.Binding.Growth

/-!
Runs under watch. A watch says what may be asked of which bindings, what an alias may stand for when
it is filled, and which new types may be made for whom. It follows a run into the declarations that
the run binds, and no run that is cut off for its depth passes.
-/

namespace PropSchema

open Bindings

abbrev Owner := Option (FileId × Nat)

structure Watch where
  question : Bindings → Question → Prop
  target : Bindings → TypeId → Prop
  made : Owner → TypeId → Prop

def Watch.Allows (w : Watch) (owner : Owner) (b c : Bindings) (q : Question) : Prop :=
  w.question b q ∧ (b.table.size < c.table.size → w.made owner b.table.size)

namespace Binder

variable {α β : Type} (bind : Binder) (w : Watch)
  (node : Owner → Bindings → Scope → Node → Prop)

def Passes (owner : Owner) (b : Bindings) : Question → Prop
  | .type scope n => node owner b scope n
  | q => w.Allows owner b (b.after (bind.answer q)).2 q

def Watched (owner : Owner) : Dialogue α → Bindings → Prop
  | .done _, _ => True
  | .ask q next, b => bind.Passes w node owner b q ∧
    Watched owner (next (b.after (bind.answer q)).1) (b.after (bind.answer q)).2

def WatchedBody (d : Declaration) (b : Bindings) : Prop :=
  (d.node.kind = .interfaceDeclaration →
    bind.Watched w node (some d.key) d.interfaceBody (b.reserve d)) ∧
  (d.node.kind = .typeAliasDeclaration →
    let r := (b.reserve d).after (bind.run d.aliasBody)
    bind.Watched w node (some d.key) d.aliasBody (b.reserve d) ∧
      (r.1 ≠ b.table.size → w.target r.2 r.1))

def WatchedDeclaration (d : Declaration) (b : Bindings) : Prop :=
  b.declared.lookup d.key = none → bind.WatchedBody w node d b

def WatchedMeaning : Meaning → Bindings → Prop
  | .type _, _ => True
  | .declaration d, b => bind.WatchedDeclaration w node d b

end Binder

def Program.WatchedAt (P : Program) (w : Watch) :
    Nat → Owner → Bindings → Scope → Node → Prop
  | 0, _, _, _, _ => False
  | levels + 1, owner, b, scope, n =>
    let bind := P.binderAt levels
    let r := b.after (bind.run (.meaning P scope n))
    bind.Watched w (P.WatchedAt w levels) owner (.meaning P scope n) b ∧
      bind.WatchedMeaning w (P.WatchedAt w levels) r.1 r.2

structure Watch.Implies (w v : Watch) : Prop where
  question : ∀ {b q}, w.question b q → v.question b q
  target : ∀ {b x}, w.target b x → v.target b x
  made : ∀ {owner x}, w.made owner x → v.made owner x

namespace Binder

variable {α β : Type} {bind : Binder} {w v : Watch} {owner : Owner}
  {node node' : Owner → Bindings → Scope → Node → Prop}

theorem watched_bind {d : Dialogue α} {f : α → Dialogue β} {b : Bindings} :
    bind.Watched w node owner (d >>= f) b ↔ bind.Watched w node owner d b ∧
      bind.Watched w node owner (f (b.after (bind.run d)).1) (b.after (bind.run d)).2 := by
  change bind.Watched w node owner (d.bind f) b ↔ _
  induction d generalizing b with
  | done a => exact (iff_of_eq (true_and _)).symm
  | ask q next ih => exact (and_congr_right fun _ => ih _).trans and_assoc.symm

theorem Watched.next {q : Question} {next : q.Answer → Dialogue α} {b c : Bindings} {a : q.Answer}
    (h : bind.Watched w node owner (.ask q next) b) (hq : b.after (bind.answer q) = (a, c)) :
    bind.Watched w node owner (next a) c := by
  have hnext := h.2
  rwa [hq] at hnext

section Implies

variable (h : w.Implies v)
  (hnode : ∀ owner b scope n, node owner b scope n → node' owner b scope n)

include h hnode

theorem Watched.imp {d : Dialogue α} {b : Bindings} (hd : bind.Watched w node owner d b) :
    bind.Watched v node' owner d b := by
  induction d generalizing b with
  | done a => trivial
  | ask q next ih =>
    refine ⟨?_, ih _ hd.2⟩
    cases q with
    | type scope n => exact hnode _ _ _ _ hd.1
    | _ => exact ⟨h.question hd.1.1, fun hlt => h.made (hd.1.2 hlt)⟩

theorem WatchedMeaning.imp {m : Meaning} {b : Bindings} (hm : bind.WatchedMeaning w node m b) :
    bind.WatchedMeaning v node' m b := by
  cases m with
  | type id => trivial
  | declaration d =>
    intro hl
    refine ⟨fun hk => ((hm hl).1 hk).imp h hnode, fun hk => ?_⟩
    exact ⟨((hm hl).2 hk).1.imp h hnode, fun hne => h.target (((hm hl).2 hk).2 hne)⟩

end Implies

end Binder

theorem Program.WatchedAt.imp {P : Program} {w v : Watch} (h : w.Implies v) {levels : Nat}
    {owner : Owner} {b : Bindings} {scope : Scope} {n : Node}
    (hn : P.WatchedAt w levels owner b scope n) : P.WatchedAt v levels owner b scope n := by
  induction levels generalizing owner b scope n with
  | zero => exact hn
  | succ levels ih =>
    exact ⟨hn.1.imp h fun _ _ _ _ => ih, hn.2.imp h fun _ _ _ _ => ih⟩

def Watch.marked (w : Watch) (own : TypeId → Owner) : Watch :=
  { w with made := fun owner x => own x = owner }

/-- There are owners for the types of an interval with which the property holds, whoever the owners
of the other types are. -/
def Assignable (m n : TypeId) (p : (TypeId → Owner) → Prop) : Prop :=
  ∃ own : TypeId → Owner, ∀ own', (∀ x, m ≤ x → x < n → own' x = own x) → p own'

namespace Assignable

variable {k m n m' n' : TypeId} {p q : (TypeId → Owner) → Prop}

theorem of_forall (h : ∀ own, p own) : Assignable m n p := ⟨fun _ => none, fun own' _ => h own'⟩

theorem first (h : m < n) (owner : Owner) : Assignable m n fun own => own m = owner :=
  ⟨fun _ => owner, fun _ heq => heq m (Nat.le_refl m) h⟩

theorem imp (h : Assignable m n p) (hpq : ∀ own, p own → q own) : Assignable m n q :=
  Exists.imp (fun _ hown own' heq => hpq own' (hown own' heq)) h

theorem mono (h : Assignable m n p) (hm : m' ≤ m) (hn : n ≤ n') : Assignable m' n' p := by
  refine Exists.imp (fun own hown own' heq => hown own' fun x hle hlt => ?_) h
  exact heq x (Nat.le_trans hm hle) (Nat.lt_of_lt_of_le hlt hn)

theorem and (h : Assignable m k p) (h' : Assignable k n q) (hmk : m ≤ k) (hkn : k ≤ n) :
    Assignable m n fun own => p own ∧ q own := by
  obtain ⟨own₁, h₁⟩ := h
  obtain ⟨own₂, h₂⟩ := h'
  refine ⟨fun x => if x < k then own₁ x else own₂ x, fun own' heq => ⟨h₁ own' ?_, h₂ own' ?_⟩⟩
  · intro x hle hlt
    exact (heq x hle (Nat.lt_of_lt_of_le hlt hkn)).trans (if_pos hlt)
  · intro x hle hlt
    exact (heq x (Nat.le_trans hmk hle) hlt).trans (if_neg (Nat.not_lt.2 hle))

end Assignable

theorem Watch.Allows.assignable {w : Watch} {owner : Owner} {b c : Bindings} {q : Question}
    (h : w.Allows owner b c q) :
    Assignable b.table.size c.table.size fun own => (w.marked own).Allows owner b c q := by
  by_cases hlt : b.table.size < c.table.size
  · exact (Assignable.first hlt owner).imp fun _ heq => ⟨h.1, fun _ => heq⟩
  · exact .of_forall fun _ => ⟨h.1, fun hlt' => absurd hlt' hlt⟩

namespace Binder

variable {α : Type} {bind : Binder} {w : Watch} {owner : Owner}
  {node : Owner → Bindings → Scope → Node → Prop}
  {marked : (TypeId → Owner) → Owner → Bindings → Scope → Node → Prop}
  (hgrows : ∀ scope n, Kept Grows (bind scope n))
  (hnode : ∀ owner b scope n, node owner b scope n →
    Assignable b.table.size (b.after (bind scope n)).2.table.size
      fun own => marked own owner b scope n)

include hgrows hnode

theorem assignable_run {d : Dialogue α} {b : Bindings} (h : bind.Watched w node owner d b) :
    Assignable b.table.size (b.after (bind.run d)).2.table.size
      fun own => bind.Watched (w.marked own) (marked own) owner d b := by
  induction d generalizing b with
  | done a => exact .of_forall fun _ => trivial
  | ask q next ih =>
    have hq : Assignable b.table.size (b.after (bind.answer q)).2.table.size
        fun own => bind.Passes (w.marked own) (marked own) owner b q := by
      cases q with
      | type scope n => exact hnode _ _ _ _ h.1
      | _ => exact h.1.assignable
    exact hq.and (ih _ h.2) (kept_grows_answer hgrows q b).table.size_le
      (kept_grows hgrows (next _) _).table.size_le

theorem assignable_meaning {m : Meaning} {b : Bindings} (h : bind.WatchedMeaning w node m b) :
    Assignable b.table.size (b.after (bind.meantType m)).2.table.size
      fun own => bind.WatchedMeaning (w.marked own) (marked own) m b := by
  cases m with
  | type id => exact .of_forall fun _ => trivial
  | declaration d =>
    change Assignable _ (b.after (bind.declarationType d)).2.table.size _
    cases hl : b.declared.lookup d.key with
    | some id =>
      refine .of_forall fun _ hl' => ?_
      rw [hl] at hl'
      cases hl'
    | none =>
      have hle := Nat.le_of_lt (size_lt_reserve b d)
      obtain ⟨hk, heq⟩ | ⟨hk, heq⟩ | ⟨hleaf, -⟩ := after_declarationType_of_none bind hl
      · have hbody := assignable_run hgrows hnode ((h hl).1 hk)
        rw [heq, after_interfaceType, size_fillInterface]
        refine (hbody.mono hle (Nat.le_refl _)).imp fun own hown _ => ⟨fun _ => hown, fun hk' => ?_⟩
        rw [hk] at hk'
        cases hk'
      · have hbody := assignable_run hgrows hnode ((h hl).2 hk).1
        rw [heq, after_aliasType, size_fillAlias]
        refine (hbody.mono hle (Nat.le_refl _)).imp fun own hown _ =>
          ⟨fun hk' => ?_, fun _ => ⟨hown, ((h hl).2 hk).2⟩⟩
        rw [hk] at hk'
        cases hk'
      · exact .of_forall fun _ _ => ⟨fun hk => absurd hk hleaf.1, fun hk => absurd hk hleaf.2⟩

end Binder

/-- All types that a run makes can be marked with their owners. -/
theorem Program.assignable_watchedAt {P : Program} {w : Watch} {levels : Nat} {owner : Owner}
    {b : Bindings} {scope : Scope} {n : Node} (h : P.WatchedAt w levels owner b scope n) :
    Assignable b.table.size (b.after (P.binderAt levels scope n)).2.table.size
      fun own => P.WatchedAt (w.marked own) levels owner b scope n := by
  induction levels generalizing owner b scope n with
  | zero => exact h.elim
  | succ levels ih =>
    have hgrows := P.closed_grows.kept_binderAt levels
    have hmeaning := Binder.assignable_run hgrows (fun _ _ _ _ => ih) h.1
    apply hmeaning.and (Binder.assignable_meaning hgrows (fun _ _ _ _ => ih) h.2)
    · exact (Binder.kept_grows hgrows _ b).table.size_le
    · exact (Binder.kept_grows_meantType hgrows _ _).table.size_le

section Decidable

namespace Binder

variable {α : Type} {bind : Binder} {w : Watch} {node : Owner → Bindings → Scope → Node → Prop}
  [∀ b q, Decidable (w.question b q)] [∀ b x, Decidable (w.target b x)]
  [∀ o x, Decidable (w.made o x)] [∀ o b scope n, Decidable (node o b scope n)]

instance decidablePasses (owner : Owner) (b : Bindings) :
    (q : Question) → Decidable (bind.Passes w node owner b q)
  | .type scope n => inferInstanceAs (Decidable (node owner b scope n))
  | .add _ _ | .intern _ _ | .union _ | .intersection _ | .members _ | .keyNames _ | .display _ =>
    inferInstanceAs (Decidable (_ ∧ (_ → _)))

instance decidableWatched (owner : Owner) :
    (d : Dialogue α) → (b : Bindings) → Decidable (bind.Watched w node owner d b)
  | .done _, _ => .isTrue trivial
  | .ask q next, b =>
    @instDecidableAnd _ _ (decidablePasses owner b q) (decidableWatched owner (next _) _)

instance decidableWatchedMeaning :
    (m : Meaning) → (b : Bindings) → Decidable (bind.WatchedMeaning w node m b)
  | .type _, _ => .isTrue trivial
  | .declaration _, _ => inferInstanceAs (Decidable (_ → (_ → _) ∧ (_ → _ ∧ (_ → _))))

end Binder

instance Program.decidableWatchedAt (P : Program) (w : Watch) [∀ b q, Decidable (w.question b q)]
    [∀ b x, Decidable (w.target b x)] [∀ o x, Decidable (w.made o x)] :
    (levels : Nat) → (owner : Owner) → (b : Bindings) → (scope : Scope) → (n : Node) →
      Decidable (P.WatchedAt w levels owner b scope n)
  | 0, _, _, _, _ => .isFalse id
  | levels + 1, _, _, _, _ =>
    have := P.decidableWatchedAt w levels
    inferInstanceAs (Decidable (_ ∧ _))

end Decidable

end PropSchema
