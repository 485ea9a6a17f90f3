import PropSchema.Proofs.Schema.Shape
import PropSchema.Proofs.Schema.Termination

namespace PropSchema

/-- A relation between computations of two kinds that fits how they are put together. -/
structure Relates {m n : Type → Type} [Monad m] [Monad n] [MonadLiftT Option m]
    [MonadLiftT Option n] (rel : ∀ α : Type, m α → n α → Prop) : Prop where
  none {α : Type} : rel _ (liftM (none : Option α)) (liftM (none : Option α))
  pure {α : Type} (a : α) : rel _ (pure a) (pure a)
  bind {α β : Type} {x : m α} {y : n α} {f : α → m β} {g : α → n β} :
    rel α x y → (∀ a, rel _ (f a) (g a)) → rel _ (x >>= f) (y >>= g)

namespace Relates

variable {m n : Type → Type} [Monad m] [LawfulMonad m] [MonadLiftT Option m] [Monad n]
  [LawfulMonad n] [MonadLiftT Option n] {rel : ∀ α : Type, m α → n α → Prop} {α β : Type}

theorem map (hrel : Relates rel) {x : m α} {y : n α} (h : rel α x y) (f : α → β) :
    rel _ (f <$> x) (f <$> y) := by
  rw [map_eq_pure_bind, map_eq_pure_bind]
  exact hrel.bind h fun a => hrel.pure (f a)

theorem mapM (hrel : Relates rel) {f : α → m β} {g : α → n β} (h : ∀ a, rel _ (f a) (g a))
    (l : List α) : rel _ (l.mapM f) (l.mapM g) := by
  induction l with
  | nil => exact hrel.pure []
  | cons a l ih =>
    rw [List.mapM_cons, List.mapM_cons]
    exact hrel.bind (h a) fun b => hrel.bind ih fun bs => hrel.pure (b :: bs)

variable {t : TypeTable} {name : String} {required : Bool}
  {expand : TypeId → m (List PropDefinition)} {expand' : TypeId → n (List PropDefinition)}

theorem propByForm (hrel : Relates rel) {nested : TypeId → m PropDefinition}
    {nested' : TypeId → n PropDefinition} (hexpand : ∀ ty, rel _ (expand ty) (expand' ty))
    (hnested : ∀ ty, rel _ (nested ty) (nested' ty)) (ty : TypeId) :
    rel _ (t.propByForm expand nested name required ty)
      (t.propByForm expand' nested' name required ty) := by
  simp only [TypeTable.propByForm]
  cases t.kind (t.declared ty) with
  | union =>
    cases t.unionShape ty with
    | single inner => exact hnested inner
    | mixed variants =>
      cases variants with
      | nil => exact hrel.pure _
      | cons first rest => exact hrel.map (hrel.mapM hnested _) _
    | _ => exact hrel.pure _
  | object => exact hrel.map (hexpand ty) _
  | _ => exact hrel.pure _

theorem propAt (hrel : Relates rel) (hexpand : ∀ ty, rel _ (expand ty) (expand' ty)) (nesting : Nat)
    (ty : TypeId) :
    rel _ (t.propAt expand name required nesting ty)
      (t.propAt expand' name required nesting ty) := by
  induction nesting generalizing ty with
  | zero => exact hrel.none
  | succ nesting ih =>
    rw [TypeTable.propAt, TypeTable.propAt]
    split
    · exact hrel.pure _
    · exact hrel.propByForm hexpand ih ty

end Relates

namespace Extraction

variable {α : Type}

/-- On this trail the computation has the given result, if any, and leaves the trail as it was. -/
def Yields (x : Extraction α) (trail : Trail) (result : Option α) : Prop :=
  x.run trail = result.map (·, trail)

theorem relates_yields (trail : Trail) :
    Relates (m := Extraction) (n := Option) (fun _ x result => Yields x trail result) where
  none := rfl
  pure _ := rfl
  bind {_ _ x result f g} h hf := by
    rw [Yields, StateT.run_bind, h]
    cases result with
    | none => rfl
    | some a => exact hf a

end Extraction

namespace TypeTable

open Extraction (Yields relates_yields)

variable {t : TypeTable} {trail : Trail} {name : String} {optional required : Bool} {ty : TypeId}

theorem run_expandAt (depth : Nat) (ty : TypeId) :
    (t.expandAt (m := Extraction) (depth + 1) ty).run trail =
      if t.display ty ∈ trail ∨ Trail.limit ≤ trail.length then some ([], trail)
      else
        ((((t.members ty).filter (·.declaration.isSome)).mapM fun m =>
          t.propAt (m := Extraction) (t.expandAt depth) m.name (! m.optional) t.unionLevels
            m.site).run (t.display ty :: trail)).map fun r => (r.1, r.2.tail) := by
  rw [expandAt]
  change StateT.run (ite _ _ _) trail = _
  split
  · rfl
  · rw [Option.map_eq_bind]
    rfl

theorem yields_expandAt {depth : Nat} (h : Trail.limit ≤ trail.length + depth) (ty : TypeId) :
    Yields (t.expandAt (depth + 1) ty) trail (t.propsWithin trail ty) := by
  induction depth generalizing trail ty with
  | zero => rw [Yields, run_expandAt, propsWithin_eq, if_pos (.inr h), if_pos (.inr h)]; rfl
  | succ depth ih =>
    rw [Yields, run_expandAt, propsWithin_eq]
    split
    · rfl
    · have hroom : Trail.limit ≤ (t.display ty :: trail).length + depth := by
        rw [List.length_cons]
        omega
      have hprops : Yields
          (((t.members ty).filter (·.declaration.isSome)).mapM fun m =>
            t.propAt (t.expandAt (depth + 1)) m.name (! m.optional) t.unionLevels m.site)
          (t.display ty :: trail)
          (((t.members ty).filter (·.declaration.isSome)).mapM fun m =>
            t.propWithin (t.display ty :: trail) m.name m.optional m.site) :=
        (relates_yields _).mapM (fun m => (relates_yields _).propAt (ih hroom) _ _) _
      rw [hprops, Option.map_map]
      rfl

theorem yields_extract (t : TypeTable) (trail : Trail) (ty : TypeId) :
    Yields (t.extract ty) trail (t.propsWithin trail ty) :=
  yields_expandAt (Nat.le_add_left _ _) ty

theorem yields_define (t : TypeTable) (trail : Trail) (name : String) (optional : Bool)
    (ty : TypeId) :
    Yields (t.define name optional ty) trail (t.propWithin trail name optional ty) :=
  (relates_yields trail).propAt (t.yields_extract trail) _ _

theorem mapM_eq_some_iff {α β : Type} {f : α → Option β} {l : List α} {result : List β} :
    l.mapM f = some result ↔ List.Forall₂ (fun a b => f a = some b) l result := by
  induction l generalizing result with
  | nil => simp [eq_comm]
  | cons a l ih =>
    simp only [List.mapM_cons, Option.pure_def, Option.bind_eq_bind, Option.bind_eq_some_iff,
      Option.some.injEq, List.forall₂_cons_left_iff, ih]
    constructor
    · rintro ⟨b, hb, rest, hrest, rfl⟩
      exact ⟨b, rest, hb, hrest, rfl⟩
    · rintro ⟨b, rest, hb, hrest, rfl⟩
      exact ⟨b, hb, rest, hrest, rfl⟩

structure DefinesMember (t : TypeTable) (trail : Trail) (m : Member) (p : PropDefinition) :
    Prop where
  name_eq : p.name = m.name
  required_eq : p.required = ! m.optional
  run_eq : (t.define m.name m.optional m.site).run trail = some (p, trail)

theorem run_define {p : PropDefinition} (h : t.propWithin trail name optional ty = some p) :
    (t.define name optional ty).run trail = some (p, trail) := by
  rw [t.yields_define, h]
  rfl

theorem run_extract {props : List PropDefinition} (h : t.propsWithin trail ty = some props) :
    (t.extract ty).run trail = some (props, trail) := by
  rw [t.yields_extract, h]
  rfl

theorem name_required_of_propWithin {p : PropDefinition}
    (h : t.propWithin trail name optional ty = some p) : p.name = name ∧ p.required = ! optional :=
  (wellShaped_propAt (fun _ _ => wellShaped_propsAt) h).2

theorem definesMember {m : Member} {p : PropDefinition}
    (h : t.propWithin trail m.name m.optional m.site = some p) : t.DefinesMember trail m p where
  name_eq := (name_required_of_propWithin h).1
  required_eq := (name_required_of_propWithin h).2
  run_eq := run_define h

theorem exists_propsWithin (h : Acc t.Follows (.expand trail ty)) :
    ∃ props, t.propsWithin trail ty = some props :=
  Option.isSome_iff_exists.1 (isSome_outcome_of_acc h)

theorem exists_propWithin (h : Acc t.Follows (.define trail name optional ty)) :
    ∃ p, t.propWithin trail name optional ty = some p := by
  have hsome := isSome_outcome_of_acc h
  rw [outcome, Option.isSome_map] at hsome
  exact Option.isSome_iff_exists.1 hsome

theorem extract_memberwise (t : TypeTable) (trail : Trail) (ty : TypeId) :
    (Acc t.Follows (.expand trail ty) →
      ∃ props, (t.extract ty).run trail = some (props, trail) ∧
        t.propsWithin trail ty = some props ∧
        if t.display ty ∈ trail ∨ Trail.limit ≤ trail.length then props = []
        else List.Forall₂ (t.DefinesMember (t.display ty :: trail))
          ((t.members ty).filter (·.declaration.isSome)) props) ∧
    ∀ name optional, Acc t.Follows (.define trail name optional ty) →
      ∃ p, (t.define name optional ty).run trail = some (p, trail) ∧
        t.propWithin trail name optional ty = some p ∧ p.name = name ∧ p.required = ! optional := by
  constructor
  · intro h
    obtain ⟨props, hprops⟩ := exists_propsWithin h
    refine ⟨props, run_extract hprops, hprops, ?_⟩
    rw [propsWithin_eq] at hprops
    split
    · next hcut =>
      rw [if_pos hcut] at hprops
      exact (Option.some.inj hprops).symm
    · next hcut =>
      rw [if_neg hcut] at hprops
      exact (mapM_eq_some_iff.1 hprops).imp fun m p => definesMember
  · intro name optional h
    obtain ⟨p, hp⟩ := exists_propWithin h
    exact ⟨p, run_define hp, hp, name_required_of_propWithin hp⟩

def segment : TypeTable where
  entries := #[⟨.primitive .number, none⟩,
    ⟨.object ⟨some "Point", [⟨"x", 0, 0, false, some ⟨0, 1⟩⟩], []⟩, none⟩,
    ⟨.object ⟨some "Props", [⟨"from", 1, 1, false, some ⟨0, 2⟩⟩, ⟨"to", 1, 1, true, some ⟨0, 3⟩⟩],
      []⟩, none⟩]

theorem extract_memberwise_segment :
    Acc segment.Follows (.expand [] 2) ∧
      ∃ props, (segment.extract 2).run [] = some (props, []) ∧
        List.Forall₂ (segment.DefinesMember ["Props"]) (segment.members 2) props ∧
          props.length = 2 := by
  have hends : Acc segment.Follows (.expand [] 2) :=
    (isSome_outcome_iff_acc _).1 (by decide +kernel)
  obtain ⟨props, hrun, -, hprops⟩ := (extract_memberwise segment [] 2).1 hends
  have hdisplay : segment.display 2 = "Props" := by decide +kernel
  have hall : (segment.members 2).filter (·.declaration.isSome) = segment.members 2 := by
    decide +kernel
  rw [if_neg (by decide +kernel), hdisplay, hall] at hprops
  exact ⟨hends, props, hrun, hprops, hprops.length_eq.symm⟩

end TypeTable

end PropSchema
