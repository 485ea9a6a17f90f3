import PropSchema.Component.Props
import PropSchema.Proofs.Binding.Depth

namespace PropSchema

open Bindings

namespace Program

variable {m : Type → Type} [Monad m] [MonadStateOf Bindings m] {P : Program}

inductive Request (P : Program)
  | typeAt (file : FileId) (n : Node)
  | declaredType (d : Declaration) (hd : P.Has d)
  | propsType (d : Declaration)
  | schemaEntry (root : Path) (file : FileId)

def serve (bind : Binder m) : P.Request → m Unit
  | .typeAt file n => discard (bind ⟨file, []⟩ n)
  | .declaredType d _ => discard (bind.declarationType d)
  | .propsType d => discard (bind.propsType P d)
  | .schemaEntry root file => discard (bind.schemaEntry P root file)

def servedFrom (b : Bindings) (requests : List P.Request) : Bindings :=
  (b.after (requests.forM (serve (P.binderAt bindLevels)))).2

def served (requests : List P.Request) : Bindings := servedFrom {} requests

def countedServed (fuel : Nat) (requests : List P.Request) : Bindings × Nat :=
  let r := ({} : Bindings).after ((requests.forM (serve (P.countedAt fuel))).run 0)
  (r.2, r.1.2)

def propsPlace? (P : Program) (file : FileId) : Option (FileId × Node) :=
  (P.defaultExport? file).bind P.propsNode?

def Request.call? : P.Request → Option P.Call
  | .typeAt file n => some (.typeAt file n)
  | .declaredType d hd => some (.declaredType d hd)
  | .propsType d => (P.propsNode? d).map fun (file, n) => .typeAt file n
  | .schemaEntry _ file => (P.propsPlace? file).map fun (file, n) => .typeAt file n

section

variable {bind : Binder} {b : Bindings}

theorem after_schemaEntry_of_none {file : FileId} (h : P.propsPlace? file = none) (root : Path) :
    b.after (bind.schemaEntry P root file) = (some none, b) := by
  rw [Binder.schemaEntry]
  rw [propsPlace?] at h
  cases hd : P.defaultExport? file with
  | none => rfl
  | some d =>
    rw [hd] at h
    simp only [Binder.propsType, show P.propsNode? d = none from h]
    rfl

theorem after_schemaEntry_of_some {file place : FileId} {n : Node}
    (h : P.propsPlace? file = some (place, n)) (root : Path) :
    b.after (bind.schemaEntry P root file) =
      let r := b.after (bind ⟨place, []⟩ n)
      (P.entryOf root file r.2.table r.1, r.2) := by
  rw [Binder.schemaEntry]
  rw [propsPlace?] at h
  cases hd : P.defaultExport? file with
  | none =>
    rw [hd] at h
    cases h
  | some d =>
    rw [hd] at h
    simp only [Binder.propsType, show P.propsNode? d = some (place, n) from h]
    rfl

theorem props_of_entryOf {root : Path} {file : FileId} {t : TypeTable} {type : TypeId}
    {e : SchemaEntry} (h : P.entryOf root file t type = some (some e)) :
    t.props type = some e.props := by
  obtain ⟨props, hprops, hentry⟩ := Option.map_eq_some_iff.1 h
  split at hentry
  · cases hentry
  · obtain ⟨key, -, rfl⟩ := Option.map_eq_some_iff.1 hentry
    exact hprops

theorem after_serve (b : Bindings) (request : P.Request) :
    (b.after (serve (P.binderAt bindLevels) request)).2 =
      request.call?.elim b fun call => (b.after (P.perform call)).2 := by
  cases request with
  | typeAt file n => rfl
  | declaredType d hd => rfl
  | propsType d =>
    rw [serve, Request.call?, Binder.propsType]
    cases P.propsNode? d with
    | none => rfl
    | some place => rfl
  | schemaEntry root file =>
    change (b.after ((P.binderAt bindLevels).schemaEntry P root file)).2 = _
    rw [Request.call?]
    cases h : P.propsPlace? file with
    | none => rw [after_schemaEntry_of_none h]; rfl
    | some place => rw [after_schemaEntry_of_some h]; rfl

end

theorem servedFrom_cons (b : Bindings) (request : P.Request) (requests : List P.Request) :
    servedFrom b (request :: requests) =
      servedFrom (b.after (serve (P.binderAt bindLevels) request)).2 requests := rfl

theorem servedFrom_append (b : Bindings) (requests later : List P.Request) :
    servedFrom b (requests ++ later) = servedFrom (servedFrom b requests) later := by
  induction requests generalizing b with
  | nil => rfl
  | cons request requests ih => exact ih _

theorem served_append (requests later : List P.Request) :
    served (requests ++ later) = servedFrom (served requests) later :=
  servedFrom_append {} requests later

theorem served_eq_bindingsAfter (requests : List P.Request) :
    served requests = P.bindingsAfter (requests.filterMap Request.call?) := by
  rw [served, bindingsAfter]
  generalize ({} : Bindings) = b
  induction requests generalizing b with
  | nil => rfl
  | cons request requests ih =>
    rw [servedFrom_cons, after_serve, ih, List.filterMap_cons]
    cases request.call? <;> rfl

theorem servedFrom_induction {inv : Bindings → Prop}
    (h : ∀ b (call : P.Call), inv b → inv (b.after (P.perform call)).2) {b : Bindings} (hb : inv b)
    (requests : List P.Request) : inv (servedFrom b requests) := by
  induction requests generalizing b with
  | nil => exact hb
  | cons request requests ih =>
    rw [servedFrom_cons, after_serve]
    cases request.call? with
    | none => exact ih hb
    | some call => exact ih (h b call hb)

def requestsFor (P : Program) (file : FileId) (names : List String) : List P.Request :=
  names.filterMap fun name =>
    match h : P.resolve? .type file name with
    | some d => some (.declaredType d (has_of_resolve? h))
    | none => none

end Program

namespace Binder

variable {depth : Nat} {counted : Binder CountM} {bind : Binder} {P : Program}

theorem counts_discard {α : Type} {x : CountM α} {y : BindM α} (h : Counts depth x y) :
    Counts depth (discard x) (discard y) :=
  h.bind fun _ => counts_pure ()

theorem counts_serve (h : ∀ scope n, Counts depth (counted scope n) (bind scope n))
    (request : P.Request) :
    Counts depth (Program.serve counted request) (Program.serve bind request) := by
  have hprops : ∀ d, Counts depth (counted.propsType P d) (bind.propsType P d) := by
    intro d
    rw [propsType, propsType]
    cases P.propsNode? d with
    | none => exact counts_pure none
    | some place => exact (h _ _).bind fun id => counts_pure (some id)
  cases request with
  | typeAt file n => exact counts_discard (h _ n)
  | declaredType d hd => exact counts_discard (counts_declarationType h d)
  | propsType d => exact counts_discard (hprops d)
  | schemaEntry root file =>
    apply counts_discard
    rw [schemaEntry, schemaEntry]
    cases P.defaultExport? file with
    | none => exact counts_pure _
    | some d =>
      refine (hprops d).bind fun type => ?_
      cases type with
      | none => exact counts_pure _
      | some type => exact counts_getThe.bind fun b => counts_pure _

end Binder

theorem Program.countedServed_eq {P : Program} {fuel : Nat} (h : bindLevels ≤ fuel)
    (requests : List P.Request) : countedServed fuel requests = (served requests, 0) := by
  have hcounts : Binder.Counts 0 (requests.forM (serve (P.countedAt fuel)))
      (requests.forM (serve (P.binderAt bindLevels))) := by
    induction requests with
    | nil => exact Binder.counts_pure ()
    | cons request requests ih =>
      exact (Binder.counts_serve (counts_countedAt (by omega)) request).bind fun _ => ih
  rw [countedServed, hcounts]
  rfl

end PropSchema
