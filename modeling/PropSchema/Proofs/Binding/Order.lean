import PropSchema.Proofs.Binding.Following

/-!
One run beside the finished bindings of another. If nothing that either run reads depends on open
slots, then a declaration is bound in the one as it was bound in the other, at whatever moment and
in whatever order that was: every type of the first run stands for a type of the finished bindings.
-/

namespace PropSchema

open Relabelled Relabelling Bindings

def Below (e : Bindings) (own : TypeId → Owner) (owner : Owner) (ρ : Relabelling) (bound : TypeId) :
    Prop :=
  ∀ id, ρ.dom id → e.Made own owner (ρ.perm id) → ρ.perm id < bound

/-- A step for the owner leads from `s` to the first result, and led to the second one in the other
run. Only for the owner, and for declarations that begin on the way, were types made. -/
def Matched {α : Type} [Relabelled α] (e : Bindings) (own : TypeId → Owner) (owner : Owner)
    (ρ : Relabelling) (s : Bindings) (r r' : α × Bindings) : Prop :=
  ∃ ρ' ≥ ρ, Follows e own ρ' r.2 ∧ Below e own owner ρ' r'.2.table.size ∧
    (∀ id other, ρ'.dom id → s.Started other → e.Made own other (ρ'.perm id) →
      other = owner ∨ ρ.dom id) ∧
    ρ'.Takes r.1 r'.1

section Steps

variable {α β : Type} [Relabelled α] [Relabelled β] {P : Program} {e s s' c c' : Bindings}
  {own : TypeId → Owner} {ρ : Relabelling} {owner : Owner}

theorem Matched.refl (hs : Follows e own ρ s) (hbelow : Below e own owner ρ s'.table.size)
    {a a' : α} (h : ρ.Takes a a') : Matched e own owner ρ s (a, s) (a', s') :=
  ⟨ρ, le_rfl, hs, hbelow, fun _ _ hid _ _ => .inr hid, h⟩

theorem Matched.bind {r r' : α × Bindings} {q q' : β × Bindings}
    (h : Matched e own owner ρ s r r') (hgrows : s.Grows r.2)
    (hrest : ∀ ρ' ≥ ρ, Follows e own ρ' r.2 → Below e own owner ρ' r'.2.table.size →
      ρ'.Takes r.1 r'.1 → Matched e own owner ρ' r.2 q q') : Matched e own owner ρ s q q' := by
  obtain ⟨ρ₁, hρ₁, hs₁, hbelow₁, hmade₁, ha⟩ := h
  obtain ⟨ρ₂, hρ₂, hs₂, hbelow₂, hmade₂, hb⟩ := hrest ρ₁ hρ₁ hs₁ hbelow₁ ha
  refine ⟨ρ₂, le_trans hρ₁ hρ₂, hs₂, hbelow₂, fun id other hid hstarted hmade => ?_, hb⟩
  obtain hother | hold := hmade₂ id other hid (hgrows.started hstarted) hmade
  · exact .inl hother
  · exact hmade₁ id other hold hstarted ((hρ₂ id hold).2 ▸ hmade)

theorem Matched.reading {bind bind' : Binder} {w w' : Watch}
    {node node' : Owner → Bindings → Scope → Node → Prop} {q q' : Question}
    {next : q.Answer → Dialogue α} {next' : q'.Answer → Dialogue α} {a : q.Answer} {a' : q'.Answer}
    (hq : s.after (bind.answer q) = (a, s)) (hq' : s'.after (bind'.answer q') = (a', s'))
    (hw : bind.Watched w node owner (.ask q next) s)
    (hw' : bind'.Watched w' node' owner (.ask q' next') s')
    (hlater : (s'.after (bind'.run (.ask q' next'))).2.Matures e)
    (hrest : bind.Watched w node owner (next a) s → bind'.Watched w' node' owner (next' a') s' →
      (s'.after (bind'.run (next' a'))).2.Matures e →
      Matched e own owner ρ s (s.after (bind.run (next a))) (s'.after (bind'.run (next' a')))) :
    Matched e own owner ρ s (s.after (bind.run (.ask q next)))
      (s'.after (bind'.run (.ask q' next'))) := by
  rw [Binder.after_run_of_answer hq'] at hlater ⊢
  rw [Binder.after_run_of_answer hq]
  exact hrest (hw.next hq) (hw'.next hq') hlater

theorem Matched.of_push (hbelow : Below e own owner ρ s'.table.size)
    (hle : s'.table.size ≤ c'.table.size) {y : TypeId} {ρ' : Relabelling} (hρ : ρ ≤ ρ')
    (hdom : ∀ id, ρ'.dom id ↔ ρ.dom id ∨ id = s.table.size) (hperm : ρ'.perm s.table.size = y)
    (hc : Follows e own ρ' c)
    (hy : ∀ other, e.Made own other y → other = owner ∧ y < c'.table.size) :
    Matched e own owner ρ s (s.table.size, c) (y, c') := by
  refine ⟨ρ', hρ, hc, fun id hid hmade => ?_, fun id other hid _ hmade => ?_,
    (hdom _).2 (.inr rfl), hperm.symm⟩
  · obtain hold | rfl := (hdom id).1 hid
    · rw [(hρ id hold).2] at hmade ⊢
      exact Nat.lt_of_lt_of_le (hbelow id hold hmade) hle
    · rw [hperm] at hmade ⊢
      exact (hy owner hmade).2
  · obtain hold | rfl := (hdom id).1 hid
    · exact .inr hold
    · rw [hperm] at hmade
      exact .inl (hy other hmade).1

section

variable (hs : Follows e own ρ s) (hbelow : Below e own owner ρ s'.table.size)

include hs hbelow

theorem matched_addForm (hstarted : s.Started owner) (hs' : s'.Regular) {f f' : Form}
    (hf : ρ.Takes f f') (hne : f ≠ .pending) (hown : own s'.table.size = owner)
    (hmatures : Matures { s' with table := (s'.table.addForm f').2 } e) :
    Matched e own owner ρ s (s.after (onTable (·.addForm f)))
      (s'.after (onTable (·.addForm f'))) := by
  have hlt : s'.table.size < (s'.table.addForm f').2.size := by simp
  have hentry : e.table.entry s'.table.size = ⟨rename ρ.perm f, none⟩ := by
    have hself := TypeTable.entry_addForm_self s'.table f'
    rw [← hf.2, ← hself]
    apply hmatures.table.entry_eq hlt
    rw [TypeTable.IsOpen, hself]
    exact fun heq => hf.ne_pending hne (congrArg Entry.form heq)
  have hmade : e.Made own owner s'.table.size := by
    refine ⟨fun handle hfind => ?_, hown⟩
    have hold := hmatures.find_old hfind hlt
    have hold' : s'.find handle = some s'.table.size := by cases handle <;> exact hold
    exact Nat.lt_irrefl _ (hs'.indexed.lt hold')
  have hfree : ∀ id, ρ.dom id → ρ.perm id ≠ s'.table.size := by
    intro id hid heq
    exact absurd heq (Nat.ne_of_lt (hbelow id hid (heq ▸ hmade)))
  obtain ⟨ρ', hρ, hdom, hperm, hc⟩ := hs.push hfree (grows_addForm s f) (by simp)
    (TypeTable.entry_addForm_self s.table f) (fun _ => ⟨hf.1, hentry⟩)
    (fun handle id hid => .inl (by cases handle <;> exact hid))
    (.inr ⟨owner, (grows_addForm s f).started hstarted, hmade⟩)
  exact .of_push hbelow (Nat.le_of_lt hlt) hρ hdom hperm hc
    fun other hother => ⟨hother.2.symm.trans hown, hlt⟩

theorem matched_intern (he : e.Regular) {f f' : Form} (hf : ρ.Takes f f')
    (hmatures : Matures { s' with table := (s'.table.intern f').2 } e) :
    Matched e own owner ρ s (s.after (onTable (·.intern f)))
      (s'.after (onTable (·.intern f'))) := by
  have hfind : e.find (.form f') = some (s'.table.intern f').1 :=
    hmatures.find (TypeTable.lookup_intern s'.table f')
  have hle := (TypeTable.grows_intern s'.table f').size_le
  have hfind' : e.find (rename ρ.perm (Handle.form f)) = some (s'.table.intern f').1 := hf.2 ▸ hfind
  rw [after_onTable, after_onTable]
  cases hl : s.table.interned.lookup f with
  | some id =>
    obtain ⟨-, hid, hfound⟩ := hs.found (.form f) id hl
    rw [TypeTable.intern_of_lookup hl]
    apply Matched.refl hs
    · exact fun id hid hmade => Nat.lt_of_lt_of_le (hbelow id hid hmade) hle
    · exact ⟨hid, Option.some.inj (hfind'.symm.trans hfound)⟩
  | none =>
    have hnone : s.find (.form f) = none := hl
    have hcases : ∀ handle id, find { s with table := (s.table.intern f).2 } handle = some id →
        s.find handle = some id ∨ id = s.table.size ∧ All ρ.dom handle ∧
          e.find (rename ρ.perm handle) = some (s'.table.intern f').1 := by
      intro handle id hid
      obtain hold | ⟨rfl, rfl⟩ := find_intern_cases hl hid
      · exact .inl hold
      · exact .inr ⟨rfl, hf.1, hfind'⟩
    have hgrows := grows_intern s f
    rw [TypeTable.intern_of_lookup_none hl] at hgrows hcases ⊢
    obtain ⟨ρ', hρ, hdom, hperm, hc⟩ := hs.push (hs.ne_of_find he.indexed hnone hfind') hgrows
      (TypeTable.size_addForm s.table f) (TypeTable.entry_addForm_self s.table f)
      (fun _ => ⟨hf.1, hf.2 ▸ (he.wellMade.intern_sound f' _ hfind).2⟩) hcases
      (.inl ⟨.form f, List.lookup_cons_self⟩)
    exact .of_push hbelow hle hρ hdom hperm hc fun other hother => absurd hfind (hother.1 _)

theorem matched_union (he : P.Finished own e) (hs' : s'.Matures e) {types types' : List TypeId}
    (htypes : ρ.Takes types types') (hsteady : P.Steady s (.union types))
    (hsteady' : P.Steady s' (.union types'))
    (hmatures : Matures { s' with table := (s'.table.union types').2 } e) :
    Matched e own owner ρ s (s.after (onTable (·.union types)))
      (s'.after (onTable (·.union types'))) := by
  have hparts := hs.reading he hs' (fun t => (types.flatMap t.constituents).eraseDups)
    (fun t => (types'.flatMap t.constituents).eraseDups) hsteady hsteady'
    (fun u hu => ((htypes.total).flatMap fun _ _ => hu.constituents_takes).eraseDups)
    (hs.confined.all_constituents htypes.1)
  rw [TypeTable.union_eq_unite] at hmatures
  rw [after_onTable, after_onTable, TypeTable.union_eq_unite, TypeTable.union_eq_unite]
  generalize (types.flatMap s.table.constituents).eraseDups = parts at hparts ⊢
  generalize (types'.flatMap s'.table.constituents).eraseDups = parts' at hparts hmatures ⊢
  cases hparts.forall₂ with
  | nil =>
    exact matched_intern hs hbelow he.regular (f := .primitive .never) ⟨trivial, rfl⟩
      hmatures
  | cons hone hrest =>
    cases hrest with
    | nil => exact .refl hs hbelow hone
    | cons =>
      have hunion : ρ.Takes (Form.union _) (.union _) := ⟨hparts.1, congrArg Form.union hparts.2⟩
      exact matched_intern hs hbelow he.regular hunion hmatures

theorem matched_intersection (he : P.Finished own e) (hstarted : s.Started owner) (hs' : s'.Regular)
    (hlater : s'.Matures e) {types types' : List TypeId} (htypes : ρ.Takes types types')
    (hsteady : P.Steady s (.intersection types)) (hsteady' : P.Steady s' (.intersection types'))
    (hown : s'.table.size < (s'.table.intersection types').2.size → own s'.table.size = owner)
    (hmatures : Matures { s' with table := (s'.table.intersection types').2 } e) :
    Matched e own owner ρ s (s.after (onTable (·.intersection types)))
      (s'.after (onTable (·.intersection types'))) := by
  have hparts := hs.reading he hlater (fun t => types.flatMap t.factors)
    (fun t => types'.flatMap t.factors) hsteady hsteady'
    (fun u hu => htypes.total.flatMap fun _ _ => hu.factors_takes)
    (hs.confined.all_factors htypes.1)
  rw [TypeTable.intersection_eq_meet] at hmatures hown
  rw [after_onTable, after_onTable, TypeTable.intersection_eq_meet,
    TypeTable.intersection_eq_meet]
  generalize types.flatMap s.table.factors = parts at hparts ⊢
  generalize types'.flatMap s'.table.factors = parts' at hparts hmatures hown ⊢
  have hmeet : ρ.Takes (Form.intersection parts) (.intersection parts') :=
    ⟨hparts.1, congrArg Form.intersection hparts.2⟩
  have hadd := matched_addForm hs hbelow hstarted hs' hmeet Form.noConfusion
  have hlt : s'.table.size < (s'.table.addForm (.intersection parts')).2.size := by simp
  cases hparts.forall₂ with
  | nil => exact hadd (hown hlt) hmatures
  | cons hone hrest =>
    cases hrest with
    | nil => exact .refl hs hbelow hone
    | cons => exact hadd (hown hlt) hmatures

end

end Steps

namespace Program

open Binder

variable {α : Type} [Relabelled α] {P : Program} {e s s' : Bindings} {own : TypeId → Owner}
  {ρ : Relabelling} {owner : Owner} {levels levels' : Nat}

def Retraces (P : Program) (own : TypeId → Owner) (e : Bindings) (levels levels' : Nat) : Prop :=
  ∀ (ρ : Relabelling) (owner : Owner) (s s' : Bindings) (scope : Scope) (n : Node),
    Follows e own ρ s → Below e own owner ρ s'.table.size → s.Started owner → s'.Regular →
    P.WatchedAt P.steadiness levels owner s scope n →
    P.WatchedAt (P.steadiness.marked own) levels' owner s' scope n →
    (s'.after (P.binderAt levels' scope n)).2.Matures e →
    Matched e own owner ρ s (s.after (P.binderAt levels scope n))
      (s'.after (P.binderAt levels' scope n))

theorem Retraces.run (h : P.Retraces own e levels levels') (he : P.Finished own e)
    {d d' : Dialogue α} (hd : Dialogue.Alike ρ d d') (hs : Follows e own ρ s)
    (hbelow : Below e own owner ρ s'.table.size) (hstarted : s.Started owner) (hs' : s'.Regular)
    (hw : (P.binderAt levels).Watched P.steadiness (P.WatchedAt P.steadiness levels) owner d s)
    (hw' : (P.binderAt levels').Watched (P.steadiness.marked own)
      (P.WatchedAt (P.steadiness.marked own) levels') owner d' s')
    (hlater : (s'.after ((P.binderAt levels').run d')).2.Matures e) :
    Matched e own owner ρ s (s.after ((P.binderAt levels).run d))
      (s'.after ((P.binderAt levels').run d')) := by
  have hgrows := P.closed_grows.kept_answer levels
  have hanswered : ∀ (q : Question) (next : q.Answer → Dialogue α) (b : Bindings),
      (b.after ((P.binderAt levels').run (.ask q next))).2.Matures e →
        (b.after ((P.binderAt levels').answer q)).2.Matures e :=
    fun q next b hb => (P.kept_grows_run levels' (next _) _).matures.trans hb
  have hnow : ∀ (d : Dialogue α) (b : Bindings),
      (b.after ((P.binderAt levels').run d)).2.Matures e → b.Matures e :=
    fun d b hb => (P.kept_grows_run levels' d b).matures.trans hb
  -- Both runs get answers that match, and so they go on to ask the same.
  induction hd generalizing s s' with
  | done ha => exact .refl hs hbelow ha
  | @type ρ scope n _ next' _ ih =>
    have hq := h ρ owner s s' scope n hs hbelow hstarted hs' hw.1 hw'.1
      (hanswered (.type scope n) next' s' hlater)
    refine hq.bind (hgrows (.type scope n) s) fun ρ' hρ hs₁ hbelow₁ hx => ?_
    exact ih ρ' hρ _ _ hx hs₁ hbelow₁ ((hgrows (.type scope n) s).started hstarted)
      (hs'.answer P levels' (.type scope n)) hw.2 hw'.2 hlater
  | @add ρ f f' plain plain' _ next' hf _ ih =>
    have hlt : s'.table.size < (s'.table.addForm f').2.size := by simp
    have hq := matched_addForm hs hbelow hstarted hs' hf
      (Form.proper_of_isPlain plain).ne_pending (hw'.1.2 hlt)
      (hanswered (.add f' plain') next' s' hlater)
    refine hq.bind (hgrows (.add f plain) s) fun ρ' hρ hs₁ hbelow₁ hx => ?_
    exact ih ρ' hρ _ _ hx hs₁ hbelow₁ ((hgrows (.add f plain) s).started hstarted)
      (hs'.answer P levels' (.add f' plain')) hw.2 hw'.2 hlater
  | @intern ρ f f' plain plain' _ next' hf _ ih =>
    have hq := matched_intern hs hbelow he.regular hf
      (hanswered (.intern f' plain') next' s' hlater)
    refine hq.bind (hgrows (.intern f plain) s) fun ρ' hρ hs₁ hbelow₁ hx => ?_
    exact ih ρ' hρ _ _ hx hs₁ hbelow₁ ((hgrows (.intern f plain) s).started hstarted)
      (hs'.answer P levels' (.intern f' plain')) hw.2 hw'.2 hlater
  | @union ρ types types' _ next' htypes _ ih =>
    have hq := matched_union hs hbelow he (hnow _ _ hlater) htypes hw.1.1 hw'.1.1
      (hanswered (.union types') next' s' hlater)
    refine hq.bind (hgrows (.union types) s) fun ρ' hρ hs₁ hbelow₁ hx => ?_
    exact ih ρ' hρ _ _ hx hs₁ hbelow₁ ((hgrows (.union types) s).started hstarted)
      (hs'.answer P levels' (.union types')) hw.2 hw'.2 hlater
  | @intersection ρ types types' _ next' htypes _ ih =>
    have hq := matched_intersection hs hbelow he hstarted hs' (hnow _ _ hlater) htypes hw.1.1
      hw'.1.1 hw'.1.2 (hanswered (.intersection types') next' s' hlater)
    refine hq.bind (hgrows (.intersection types) s) fun ρ' hρ hs₁ hbelow₁ hx => ?_
    exact ih ρ' hρ _ _ hx hs₁ hbelow₁ ((hgrows (.intersection types) s).started hstarted)
      (hs'.answer P levels' (.intersection types')) hw.2 hw'.2 hlater
  | @members ρ type type' _ _ htype _ ih =>
    have hms := hs.reading he (hnow _ _ hlater) (fun t => t.members type)
      (fun t => t.members type') hw.1.1 hw'.1.1 (fun u hu => hu.members_takes htype.total)
      (hs.confined.all_members htype.1)
    have hq := after_answer_members (P.binderAt levels) s type
    have hq' := after_answer_members (P.binderAt levels') s' type'
    exact .reading hq hq' hw hw' hlater (ih ρ le_rfl _ _ hms hs hbelow hstarted hs')
  | @keyNames ρ keys keys' _ _ hkeys _ ih =>
    have heq := hs.reading_eq he (hnow _ _ hlater) (fun t => t.keyNames keys)
      (fun t => t.keyNames keys') hw.1.1 hw'.1.1 (fun u hu => hu.keyNames_eq hkeys.total)
    have hq := after_answer_keyNames (P.binderAt levels) s keys
    have hq' := after_answer_keyNames (P.binderAt levels') s' keys'
    rw [← heq] at hq'
    exact .reading hq hq' hw hw' hlater (ih ρ le_rfl _ hs hbelow hstarted hs')
  | @display ρ type type' _ _ htype _ ih =>
    have heq := hs.reading_eq he (hnow _ _ hlater) (fun t => t.display type)
      (fun t => t.display type') hw.1.1 hw'.1.1 (fun u hu => hu.display_eq _ _ htype.total)
    have hq := after_answer_display (P.binderAt levels) s type
    have hq' := after_answer_display (P.binderAt levels') s' type'
    rw [← heq] at hq'
    exact .reading hq hq' hw hw' hlater (ih ρ le_rfl _ hs hbelow hstarted hs')

theorem find_of_declarationType (levels : Nat) (b : Bindings) (d : Declaration)
    (h : (b.after ((P.binderAt levels).declarationType d)).2.Matures e) :
    e.find (.declaration d.key) = some (b.after ((P.binderAt levels).declarationType d)).1 := by
  apply h.declared
  cases hl : b.declared.lookup d.key with
  | some id =>
    rw [after_declarationType_of_some hl]
    exact hl
  | none =>
    obtain ⟨hfst, hdeclared, -⟩ :=
      after_declarationType_new (P.closed_grows.kept_binderAt levels) hl
    rw [hfst]
    exact hdeclared

variable {b : Bindings} {d : Declaration}

/-- The body of a declaration is bound as it was in the other run, and no type was made for anyone
who had begun before. -/
theorem Retraces.body (h : P.Retraces own e levels levels') (he : P.Finished own e)
    (hs : Follows e own ρ s) (hl : s.declared.lookup d.key = none) (hb : b.Regular)
    (hy : e.find (.declaration d.key) = some b.table.size) {body : Dialogue α}
    (hbody : ∀ ρ, Dialogue.Alike ρ body body)
    (hw : (P.binderAt levels).Watched P.steadiness (P.WatchedAt P.steadiness levels)
      (some d.key) body (s.reserve d))
    (hw' : (P.binderAt levels').Watched (P.steadiness.marked own)
      (P.WatchedAt (P.steadiness.marked own) levels') (some d.key) body (b.reserve d))
    (hlater : ((b.reserve d).after ((P.binderAt levels').run body)).2.Matures e) :
    let r := (s.reserve d).after ((P.binderAt levels).run body)
    let r' := (b.reserve d).after ((P.binderAt levels').run body)
    ∃ ρ' ≥ ρ, Follows e own ρ' r.2 ∧ ρ'.Takes s.table.size b.table.size ∧ ρ'.Takes r.1 r'.1 ∧
      ∀ id other, ρ'.dom id → s.Started other → e.Made own other (ρ'.perm id) → ρ.dom id := by
  obtain ⟨ρ₁, hρ₁, hdom, hperm, hs₁⟩ := hs.declare he.regular hl hy fun hne => absurd rfl hne
  have hnot : ¬ s.Started (some d.key) := by
    rintro ⟨slot, hslot⟩
    exact absurd (hl.symm.trans hslot) (Option.some_ne_none slot).symm
  have hold : ∀ id other, ρ₁.dom id → e.Made own other (ρ₁.perm id) → ρ.dom id := by
    intro id other hid hmade
    obtain hold | rfl := (hdom id).1 hid
    · exact hold
    · rw [hperm] at hmade
      exact absurd hy (hmade.1 _)
  have hbelow : Below e own (some d.key) ρ₁ (b.reserve d).table.size := by
    intro id hid hmade
    have hid' := hold id _ hid hmade
    rw [(hρ₁ id hid').2] at hmade
    exact absurd hmade (hs.not_made hnot hid')
  obtain ⟨ρ₂, hρ₂, hs₂, -, hmade₂, hr⟩ := h.run he (hbody ρ₁) hs₁ hbelow
    ⟨s.table.size, lookup_declare_self s d .pending⟩ (hb.reserve d) hw hw' hlater
  have hslot := (hdom s.table.size).2 (.inr rfl)
  refine ⟨ρ₂, le_trans hρ₁ hρ₂, hs₂, ⟨(hρ₂ _ hslot).1, ?_⟩, hr,
    fun id other hid hstarted hmade => ?_⟩
  · exact ((hρ₂ _ hslot).2.trans hperm).symm
  · have hstarted' := (grows_declare hl .pending).started hstarted
    obtain rfl | hid' := hmade₂ id other hid hstarted' hmade
    · exact absurd hstarted hnot
    · exact hold id other hid' ((hρ₂ id hid').2 ▸ hmade)

def Declared (e : Bindings) (own : TypeId → Owner) (ρ : Relabelling) (s c : Bindings) (y : TypeId) :
    Prop :=
  ∃ ρ' ≥ ρ, Follows e own ρ' c ∧ ρ'.Takes s.table.size y ∧
    ∀ id other, ρ'.dom id → s.Started other → e.Made own other (ρ'.perm id) → ρ.dom id

theorem Declared.matched {c s' c' : Bindings} {y : TypeId} {owner : Owner}
    (h : Declared e own ρ s c y) (hbelow : Below e own owner ρ s'.table.size)
    (hle : s'.table.size ≤ c'.table.size) (hstarted : s.Started owner) :
    Matched e own owner ρ s (s.table.size, c) (y, c') := by
  obtain ⟨ρ', hρ, hc, hy, hmade⟩ := h
  refine ⟨ρ', hρ, hc, fun id hid hid' => ?_, fun id other hid hother hid' => ?_, hy⟩
  · have hold := hmade id owner hid hstarted hid'
    rw [(hρ id hold).2] at hid' ⊢
    exact Nat.lt_of_lt_of_le (hbelow id hold hid') hle
  · exact .inr (hmade id other hid hother hid')

section

variable (h : P.Retraces own e levels levels') (he : P.Finished own e) (hs : Follows e own ρ s)
  (hl : s.declared.lookup d.key = none) (hb : b.Regular)
  (hy : e.find (.declaration d.key) = some b.table.size)

include h he hs hl hb hy

theorem Retraces.interfaceType
    (hw : (P.binderAt levels).Watched P.steadiness (P.WatchedAt P.steadiness levels)
      (some d.key) d.interfaceBody (s.reserve d))
    (hw' : (P.binderAt levels').Watched (P.steadiness.marked own)
      (P.WatchedAt (P.steadiness.marked own) levels') (some d.key) d.interfaceBody (b.reserve d))
    (hlater : (b.after ((P.binderAt levels').interfaceType d)).2.Matures e) :
    Declared e own ρ s (s.after ((P.binderAt levels).interfaceType d)).2 b.table.size := by
  have hgrows := P.kept_grows_run levels d.interfaceBody (s.reserve d)
  have hgrows' := P.kept_grows_run levels' d.interfaceBody (b.reserve d)
  have hlt := Nat.lt_of_lt_of_le (size_lt_reserve b d) hgrows'.table.size_le
  rw [after_interfaceType] at hlater ⊢
  obtain ⟨ρ', hρ, hs', hslot, hobject, hmade⟩ := h.body he hs hl hb hy d.alike_interfaceBody hw hw'
    (hlater.of_fillInterface hgrows'.isOpen)
  exact ⟨ρ', hρ, hs'.fillInterface hslot hgrows.isOpen hgrows'.isOpen hlt hobject hlater, hslot,
    hmade⟩

theorem Retraces.aliasType
    (hw : let r := (s.reserve d).after ((P.binderAt levels).run d.aliasBody)
      (P.binderAt levels).Watched P.steadiness (P.WatchedAt P.steadiness levels)
        (some d.key) d.aliasBody (s.reserve d) ∧
      (r.1 ≠ s.table.size → P.SteadyForm r.2 r.1))
    (hw' : let r := (b.reserve d).after ((P.binderAt levels').run d.aliasBody)
      (P.binderAt levels').Watched (P.steadiness.marked own)
        (P.WatchedAt (P.steadiness.marked own) levels') (some d.key) d.aliasBody (b.reserve d) ∧
      (r.1 ≠ b.table.size → P.SteadyForm r.2 r.1))
    (hlater : (b.after ((P.binderAt levels').aliasType d)).2.Matures e) :
    Declared e own ρ s (s.after ((P.binderAt levels).aliasType d)).2 b.table.size := by
  have hgrows := P.kept_grows_run levels d.aliasBody (s.reserve d)
  have hgrows' := P.kept_grows_run levels' d.aliasBody (b.reserve d)
  have hlt := Nat.lt_of_lt_of_le (size_lt_reserve b d) hgrows'.table.size_le
  rw [after_aliasType] at hlater ⊢
  have hrun := hlater.of_fillAlias hgrows'.isOpen
  obtain ⟨ρ', hρ, hs', hslot, hbody, hmade⟩ :=
    h.body he hs hl hb hy d.alike_aliasBody hw.1 hw'.1 hrun
  exact ⟨ρ', hρ, hs'.fillAlias hslot hgrows.isOpen hgrows'.isOpen hlt he hbody hw.2 hw'.2 hlater,
    hslot, hmade⟩

end

theorem declared_leaf (he : P.Finished own e) (hs : Follows e own ρ s)
    (hl : s.declared.lookup d.key = none) (hy : e.find (.declaration d.key) = some b.table.size)
    (hlater : (b.declare d d.leafForm).Matures e) :
    Declared e own ρ s (s.declare d d.leafForm) b.table.size := by
  have htakes := d.takes_leafForm ρ
  have hentry : d.leafForm ≠ .pending → e.table.entry b.table.size = ⟨d.leafForm, none⟩ := by
    intro hne
    have hself := TypeTable.entry_addForm_self b.table d.leafForm
    rw [← hself]
    apply hlater.table.entry_eq
    · exact (size_declare b d d.leafForm).symm ▸ Nat.lt_succ_self _
    · exact fun hopen => hne (congrArg Entry.form (hself.symm.trans hopen))
  obtain ⟨ρ', hρ, hdom, hperm, hs'⟩ := hs.declare he.regular hl hy
    fun hne => ⟨htakes.1, htakes.2 ▸ hentry hne⟩
  refine ⟨ρ', hρ, hs', ⟨(hdom _).2 (.inr rfl), hperm.symm⟩, fun id other hid _ hmade => ?_⟩
  obtain hold | rfl := (hdom id).1 hid
  · exact hold
  · rw [hperm] at hmade
    exact absurd hy (hmade.1 _)

/-- A declaration is bound as it was bound in the other run, whenever that was. -/
theorem declared_declarationType (h : ∀ levels', P.Retraces own e levels levels')
    (he : P.Finished own e) (hd : P.Has d) (hs : Follows e own ρ s)
    (hl : s.declared.lookup d.key = none) {y : TypeId} (hy : e.find (.declaration d.key) = some y)
    (hw : (P.binderAt levels).WatchedBody P.steadiness (P.WatchedAt P.steadiness levels) d s) :
    Declared e own ρ s (s.after ((P.binderAt levels).declarationType d)).2 y := by
  obtain ⟨levels', b, hb, hlb, hwb, hlater⟩ := he.bound d y hd hy
  obtain ⟨hfst, -⟩ := after_declarationType_new (P.closed_grows.kept_binderAt levels') hlb
  obtain rfl : b.table.size = y := by
    have hfind := find_of_declarationType levels' b d hlater
    rw [hfst] at hfind
    exact Option.some.inj (hfind.symm.trans hy)
  obtain ⟨hk, heq⟩ | ⟨hk, heq⟩ | ⟨hleaf, heq⟩ := after_declarationType_of_none _ hl
  · rw [after_declarationType_of_interface _ hlb hk] at hlater
    rw [heq]
    exact (h levels').interfaceType he hs hl hb hy (hw.1 hk) (hwb.1 hk) hlater
  · rw [after_declarationType_of_alias _ hlb hk] at hlater
    rw [heq]
    exact (h levels').aliasType he hs hl hb hy (hw.2 hk) (hwb.2 hk) hlater
  · rw [after_declarationType_of_leaf _ hlb hleaf] at hlater
    rw [heq]
    exact declared_leaf he hs hl hy hlater

theorem matched_declarationType {s' : Bindings} {owner : Owner}
    (h : ∀ levels', P.Retraces own e levels levels') (he : P.Finished own e) (hd : P.Has d)
    (hs : Follows e own ρ s) (hbelow : Below e own owner ρ s'.table.size)
    (hstarted : s.Started owner)
    (hw : (P.binderAt levels).WatchedDeclaration P.steadiness (P.WatchedAt P.steadiness levels) d s)
    (hlater : (s'.after ((P.binderAt levels').declarationType d)).2.Matures e) :
    Matched e own owner ρ s (s.after ((P.binderAt levels).declarationType d))
      (s'.after ((P.binderAt levels').declarationType d)) := by
  have hy := find_of_declarationType levels' s' d hlater
  have hle := (kept_grows_declarationType (P.closed_grows.kept_binderAt levels') d s').table.size_le
  cases hl : s.declared.lookup d.key with
  | some id =>
    obtain ⟨-, hid, hfound⟩ := hs.found (.declaration d.key) id hl
    rw [after_declarationType_of_some hl]
    apply Matched.refl hs
    · exact fun id hid hmade => Nat.lt_of_lt_of_le (hbelow id hid hmade) hle
    · exact ⟨hid, Option.some.inj (hy.symm.trans hfound)⟩
  | none =>
    obtain ⟨hfst, -⟩ := after_declarationType_new (P.closed_grows.kept_binderAt levels) hl
    have hdeclared := declared_declarationType h he hd hs hl hy (hw hl)
    have hmatched := hdeclared.matched hbelow hle hstarted
    rwa [← hfst] at hmatched

theorem matched_meantType {s' : Bindings} {owner : Owner}
    (h : ∀ levels', P.Retraces own e levels levels') (he : P.Finished own e) {m m' : Meaning}
    (hm : ρ.Takes m m') (hd : ∀ d, m = .declaration d → P.Has d) (hs : Follows e own ρ s)
    (hbelow : Below e own owner ρ s'.table.size) (hstarted : s.Started owner)
    (hw : (P.binderAt levels).WatchedMeaning P.steadiness (P.WatchedAt P.steadiness levels) m s)
    (hlater : (s'.after ((P.binderAt levels').meantType m')).2.Matures e) :
    Matched e own owner ρ s (s.after ((P.binderAt levels).meantType m))
      (s'.after ((P.binderAt levels').meantType m')) := by
  obtain ⟨hall, rfl⟩ := hm
  cases m with
  | type id => exact .refl hs hbelow ⟨hall, rfl⟩
  | declaration d => exact matched_declarationType h he (hd d rfl) hs hbelow hstarted hw hlater

theorem retraces (he : P.Finished own e) (levels levels' : Nat) :
    P.Retraces own e levels levels' := by
  -- The other run may have bound a declaration long before, with any number of levels to go.
  induction levels generalizing levels' with
  | zero => exact fun _ _ _ _ _ _ _ _ _ _ hw => hw.elim
  | succ levels ih =>
    intro ρ owner s s' scope n hs hbelow hstarted hs' hw hw' hlater
    cases levels' with
    | zero => exact hw'.elim
    | succ levels' =>
      have hgrows' := P.closed_grows.kept_binderAt levels'
      have hmeant := (kept_grows_meantType hgrows' _ _).matures.trans hlater
      have hrun := (ih levels').run he (Dialogue.alike_meaning P ρ scope n) hs hbelow hstarted hs'
        hw.1 hw'.1 hmeant
      have hstep := P.kept_grows_run levels (Dialogue.meaning P scope n) s
      refine hrun.bind hstep fun ρ' _ hs₁ hbelow₁ hm => ?_
      exact matched_meantType ih he hm (ends_after _ (has_of_meaning P scope n) s) hs₁ hbelow₁
        (hstep.started hstarted) hw.2 hlater

end Program

end PropSchema
