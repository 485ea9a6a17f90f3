import PropSchema.Proofs.Schema.SharedTrail

namespace PropSchema

structure Trail.History where
  now : Trail
  before : List Trail

abbrev Recording := StateT Trail.History Option

instance : MonadStateOf Trail Recording where
  get := fun h => some (h.now, h)
  set trail := fun h => some (⟨⟩, ⟨trail, h.now :: h.before⟩)
  modifyGet f := fun h => some ((f h.now).1, ⟨(f h.now).2, h.now :: h.before⟩)

namespace TypeTable

def recordedExtract (t : TypeTable) (ty : TypeId) : Recording (List PropDefinition) :=
  t.expandAt (Trail.limit + 1) ty

def recordedDefine (t : TypeTable) (name : String) (optional : Bool) (ty : TypeId) :
    Recording PropDefinition :=
  t.propAt t.recordedExtract name (! optional) t.unionLevels ty

end TypeTable

def Trail.History.Bounded (h : Trail.History) : Prop :=
  ∀ trail ∈ h.now :: h.before, trail.Nodup ∧ trail.length ≤ Trail.limit

namespace Recording

variable {α : Type}

/-- With its record forgotten the computation is the other one, and it puts nothing into the record
that is out of bounds. -/
structure Tracks (x : Recording α) (y : Extraction α) : Prop where
  run_eq (h : Trail.History) : (x.run h).map (fun r => (r.1, r.2.now)) = y.run h.now
  bounded {h : Trail.History} {r : α × Trail.History} :
    h.Bounded → x.run h = some r → r.2.Bounded

theorem relates_tracks :
    Relates (m := Recording) (n := Extraction) (fun _ x y => Tracks x y) where
  none := {
    run_eq _ := rfl
    bounded _ hrun := nomatch hrun }
  pure a := {
    run_eq _ := rfl
    bounded hh hrun := by
      cases hrun
      exact hh }
  bind {_ _ x y f g} hx hf := {
    run_eq h := by
      rw [StateT.run_bind, StateT.run_bind, ← hx.run_eq h]
      cases x.run h with
      | none => rfl
      | some r => exact (hf r.1).run_eq r.2
    bounded hh hrun := by
      obtain ⟨⟨a, h'⟩, hfirst, hrest⟩ := Option.bind_eq_some_iff.1 hrun
      exact (hf a).bounded (hx.bounded hh hfirst) hrest }

end Recording

namespace TypeTable

open Recording

variable {t : TypeTable}

theorem run_recorded_expandAt (depth : Nat) (ty : TypeId) (h : Trail.History) :
    (t.expandAt (m := Recording) (depth + 1) ty).run h =
      if t.display ty ∈ h.now ∨ Trail.limit ≤ h.now.length then some ([], h)
      else
        ((((t.members ty).filter (·.declaration.isSome)).mapM fun m =>
          t.propAt (m := Recording) (t.expandAt depth) m.name (! m.optional) t.unionLevels
            m.site).run ⟨t.display ty :: h.now, h.now :: h.before⟩).map fun r =>
              (r.1, ⟨r.2.now.tail, r.2.now :: r.2.before⟩) := by
  rw [expandAt]
  change StateT.run (ite _ _ _) h = _
  split
  · rfl
  · rw [Option.map_eq_bind]
    rfl

theorem tracks_expandAt (depth : Nat) (ty : TypeId) :
    Tracks (t.expandAt depth ty) (t.expandAt depth ty) := by
  induction depth generalizing ty with
  | zero => exact relates_tracks.none
  | succ depth ih =>
    have hmembers : Tracks
        (((t.members ty).filter (·.declaration.isSome)).mapM fun m =>
          t.propAt (t.expandAt depth) m.name (! m.optional) t.unionLevels m.site)
        (((t.members ty).filter (·.declaration.isSome)).mapM fun m =>
          t.propAt (t.expandAt depth) m.name (! m.optional) t.unionLevels m.site) :=
      relates_tracks.mapM (fun m => relates_tracks.propAt ih _ _) _
    constructor
    · intro h
      rw [run_recorded_expandAt, run_expandAt]
      split
      · rfl
      · rw [← hmembers.run_eq ⟨_, _⟩, Option.map_map, Option.map_map]
        rfl
    · intro h r hh hrun
      rw [run_recorded_expandAt] at hrun
      split at hrun
      · cases hrun
        exact hh
      · next hcut =>
        rw [not_or, Nat.not_le] at hcut
        obtain ⟨⟨props, h'⟩, hinside, rfl⟩ := Option.map_eq_some_iff.1 hrun
        have hentered : Trail.History.Bounded ⟨t.display ty :: h.now, h.now :: h.before⟩ := by
          refine List.forall_mem_cons.2 ⟨⟨?_, hcut.2⟩, hh⟩
          exact List.nodup_cons.2 ⟨hcut.1, (hh _ List.mem_cons_self).1⟩
        have hdefined : h'.Bounded := hmembers.bounded hentered hinside
        obtain ⟨hnodup, hlength⟩ := hdefined h'.now List.mem_cons_self
        refine List.forall_mem_cons.2 ⟨⟨hnodup.sublist (List.tail_sublist _), ?_⟩, hdefined⟩
        exact Nat.le_trans (List.tail_sublist _).length_le hlength

theorem tracks_extract (t : TypeTable) (ty : TypeId) :
    Tracks (t.recordedExtract ty) (t.extract ty) :=
  tracks_expandAt (Trail.limit + 1) ty

theorem tracks_define (t : TypeTable) (name : String) (optional : Bool) (ty : TypeId) :
    Tracks (t.recordedDefine name optional ty) (t.define name optional ty) :=
  relates_tracks.propAt t.tracks_extract _ _

theorem exists_record {α : Type} {x : Recording α} {y : Extraction α} {a : α} (h : Tracks x y)
    (hrun : y.run [] = some (a, [])) :
    ∃ record, x.run ⟨[], []⟩ = some (a, ⟨[], record⟩) ∧
      Trail.History.Bounded ⟨[], record⟩ := by
  have herased := h.run_eq ⟨[], []⟩
  rw [hrun] at herased
  obtain ⟨⟨a', now, record⟩, hrecorded, heq⟩ := Option.map_eq_some_iff.1 herased
  cases heq
  refine ⟨record, hrecorded, h.bounded ?_ hrecorded⟩
  intro trail htrail
  rw [List.mem_singleton.1 htrail]
  exact ⟨.nil, Nat.zero_le _⟩

/-- However objects refer back to one another, extractions end if no union is nested in itself, on
any trail. From an empty trail on, no trail that comes up is longer than the limit or has a text
twice. -/
theorem extraction_ends (t : TypeTable)
    (h : ∀ chain : Nat → TypeId, ∃ i, ¬ t.IsVariant (chain (i + 1)) (chain i)) :
    WellFounded t.Follows ∧
      (∀ trail ty, ∃ props, t.propsWithin trail ty = some props ∧
        (t.extract ty).run trail = some (props, trail)) ∧
      (∀ trail name optional ty, ∃ p, t.propWithin trail name optional ty = some p ∧
        (t.define name optional ty).run trail = some (p, trail)) ∧
      (∀ ty, ∃ props record, (t.extract ty).run [] = some (props, []) ∧
        (t.recordedExtract ty).run ⟨[], []⟩ = some (props, ⟨[], record⟩) ∧
        ∀ trail ∈ record, trail.Nodup ∧ trail.length ≤ Trail.limit) ∧
      ∀ name optional ty, ∃ p record, (t.define name optional ty).run [] = some (p, []) ∧
        (t.recordedDefine name optional ty).run ⟨[], []⟩ = some (p, ⟨[], record⟩) ∧
        ∀ trail ∈ record, trail.Nodup ∧ trail.length ≤ Trail.limit := by
  have hfollows := wellFounded_follows (wellFounded_isVariant h)
  have hextract : ∀ trail ty, ∃ props, t.propsWithin trail ty = some props ∧
      (t.extract ty).run trail = some (props, trail) := by
    intro trail ty
    obtain ⟨props, hprops⟩ := exists_propsWithin (hfollows.apply (.expand trail ty))
    exact ⟨props, hprops, run_extract hprops⟩
  have hdefine : ∀ trail name optional ty, ∃ p, t.propWithin trail name optional ty = some p ∧
      (t.define name optional ty).run trail = some (p, trail) := by
    intro trail name optional ty
    obtain ⟨p, hp⟩ := exists_propWithin (hfollows.apply (.define trail name optional ty))
    exact ⟨p, hp, run_define hp⟩
  refine ⟨hfollows, hextract, hdefine, fun ty => ?_, fun name optional ty => ?_⟩
  · obtain ⟨props, -, hrun⟩ := hextract [] ty
    obtain ⟨record, hrecorded, hbounded⟩ := exists_record (t.tracks_extract ty) hrun
    exact ⟨props, record, hrun, hrecorded, (List.forall_mem_cons.1 hbounded).2⟩
  · obtain ⟨p, -, hrun⟩ := hdefine [] name optional ty
    obtain ⟨record, hrecorded, hbounded⟩ := exists_record (t.tracks_define name optional ty) hrun
    exact ⟨p, record, hrun, hrecorded, (List.forall_mem_cons.1 hbounded).2⟩

def linked : TypeTable :=
  (({} : TypeTable).addPending.2.optional 0).2.setForm 0
    (.object ⟨some "Node", [⟨"next", 0, 2, true, some ⟨0, 1⟩⟩], []⟩)

theorem isVariant_linked {v u : TypeId} (h : linked.IsVariant v u) : u = 2 ∧ v = 0 := by
  have hu : u < 3 := lt_size_of_isVariant h
  match u, hu with
  | 0, _ => cases h
  | 1, _ => cases h
  | 2, _ => exact ⟨rfl, List.mem_singleton.1 h⟩

theorem extraction_ends_linked :
    (∀ chain : Nat → TypeId, ∃ i, ¬ linked.IsVariant (chain (i + 1)) (chain i)) ∧
      linked.IsVariant 0 2 ∧
      ∃ props, (linked.extract 0).run [] = some (props, []) ∧
        (linked.recordedExtract 0).run ⟨[], []⟩ = some (props, ⟨[], [["Node"], []]⟩) ∧
        props.map (·.name) = ["next"] := by
  have hchain : ∀ chain : Nat → TypeId, ∃ i, ¬ linked.IsVariant (chain (i + 1)) (chain i) := by
    intro chain
    by_contra hall
    simp only [not_exists, not_not] at hall
    have hzero := (isVariant_linked (hall 0)).2
    have htwo := (isVariant_linked (hall 1)).1
    simp [hzero] at htwo
  have hrecord : ((linked.recordedExtract 0).run ⟨[], []⟩).map (fun r =>
      (r.1.map (·.name), r.2.before)) = some (["next"], [["Node"], []]) := by
    decide +kernel
  obtain ⟨props, record, hrun, hrecorded, -⟩ := (extraction_ends linked hchain).2.2.2.1 0
  rw [hrecorded, Option.map_some, Option.some.injEq, Prod.mk.injEq] at hrecord
  obtain ⟨hnames, rfl⟩ := hrecord
  exact ⟨hchain, List.mem_singleton_self 0, props, hrun, hrecorded, hnames⟩

end TypeTable

end PropSchema
