import Mathlib.Data.List.Perm.Basic
import PropSchema.Map.Sorted

namespace PropSchema.SortedMap

variable {α : Type}

def Ascending (m : SortedMap α) : Prop := m.Pairwise fun a b => a.1 < b.1

theorem mem_insert {key : String} {value : α} {m : SortedMap α} {pair : String × α}
    (h : pair ∈ insert key value m) : pair = (key, value) ∨ pair ∈ m := by
  induction m with
  | nil => exact .inl (List.mem_singleton.1 h)
  | cons first rest ih =>
    rw [insert] at h
    split at h
    · exact List.mem_cons.1 h
    · split at h
      · exact (List.mem_cons.1 h).imp_right (List.mem_cons_of_mem _)
      · obtain rfl | h := List.mem_cons.1 h
        · exact .inr List.mem_cons_self
        · exact (ih h).imp_right (List.mem_cons_of_mem _)

theorem ascending_insert {m : SortedMap α} (h : Ascending m) (key : String) (value : α) :
    Ascending (insert key value m) := by
  induction m with
  | nil => exact List.pairwise_singleton ..
  | cons first rest ih =>
    obtain ⟨hfirst, hrest⟩ := List.pairwise_cons.1 h
    rw [insert]
    split
    · next hlt =>
      refine List.pairwise_cons.2 ⟨List.forall_mem_cons.2 ⟨hlt, fun pair hpair => ?_⟩, h⟩
      exact String.lt_trans hlt (hfirst pair hpair)
    · next hle =>
      split
      · next heq => exact List.pairwise_cons.2 ⟨heq ▸ hfirst, hrest⟩
      · next hne =>
        have hlt : first.1 < key := Decidable.byContradiction fun hnot =>
          hne (String.le_antisymm (String.not_lt.1 hnot) (String.not_lt.1 hle))
        refine List.pairwise_cons.2 ⟨fun pair hpair => ?_, ih hrest⟩
        obtain rfl | hpair := mem_insert hpair
        · exact hlt
        · exact hfirst pair hpair

theorem insert_eq_append {key : String} {m : SortedMap α} (value : α)
    (h : ∀ pair ∈ m, pair.1 < key) : insert key value m = m ++ [(key, value)] := by
  induction m with
  | nil => rfl
  | cons first rest ih =>
    have hfirst : first.1 < key := h first List.mem_cons_self
    have hrest := ih fun pair hpair => h pair (List.mem_cons_of_mem _ hpair)
    have hne : key ≠ first.1 := fun heq => String.lt_irrefl _ (heq ▸ hfirst)
    rw [insert, if_neg (String.lt_asymm hfirst), if_neg hne, hrest, List.cons_append]

theorem ofList_eq_self {m : SortedMap α} (h : Ascending m) : ofList m = m := by
  suffices hall : ∀ done rest : SortedMap α, Ascending (done ++ rest) →
      rest.foldl (fun m (pair : String × α) => insert pair.1 pair.2 m) done = done ++ rest from
    hall [] m h
  intro done rest
  induction rest generalizing done with
  | nil => simp
  | cons pair rest ih =>
    intro h
    have hlast : ∀ earlier ∈ done, earlier.1 < pair.1 := fun earlier hearlier =>
      (List.pairwise_append.1 h).2.2 earlier hearlier pair List.mem_cons_self
    rw [List.foldl_cons, insert_eq_append _ hlast, ih _ (by simpa [Ascending] using h)]
    simp

section Distinct

variable {key : String} {m pairs : SortedMap α}

theorem insert_perm (h : key ∉ m.map (·.1)) (value : α) :
    (insert key value m).Perm ((key, value) :: m) := by
  induction m with
  | nil => exact .refl _
  | cons first rest ih =>
    rw [List.map_cons, List.mem_cons, not_or] at h
    rw [insert, if_neg h.1]
    split
    · exact .refl _
    · exact ((ih h.2).cons first).trans (.swap ..)

theorem foldl_insert_perm (h : ((pairs ++ m).map (·.1)).Nodup) :
    (pairs.foldl (fun m (pair : String × α) => insert pair.1 pair.2 m) m).Perm (pairs ++ m) := by
  induction pairs generalizing m with
  | nil => exact .refl _
  | cons pair pairs ih =>
    have hm : pair.1 ∉ m.map (·.1) := by
      rw [List.cons_append, List.map_cons, List.map_append, List.nodup_cons, List.mem_append] at h
      exact fun hmem => h.1 (.inr hmem)
    have hinsert : (pairs ++ insert pair.1 pair.2 m).Perm (pair :: (pairs ++ m)) :=
      ((insert_perm hm pair.2).append_left pairs).trans List.perm_middle
    exact (ih ((hinsert.map _).nodup_iff.2 h)).trans hinsert

theorem ofList_perm (h : (pairs.map (·.1)).Nodup) : (ofList pairs).Perm pairs := by
  have hperm := @foldl_insert_perm _ [] pairs
  rw [List.append_nil] at hperm
  exact hperm h

end Distinct

theorem ascending_ofList (pairs : List (String × α)) : Ascending (ofList pairs) := by
  apply List.foldlRecOn (motive := fun m : SortedMap α => Ascending m)
  · exact .nil
  · intro m hm pair _
    exact ascending_insert hm pair.1 pair.2

end PropSchema.SortedMap
