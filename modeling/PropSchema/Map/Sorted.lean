namespace PropSchema

abbrev SortedMap (α : Type) := List (String × α)

namespace SortedMap

variable {κ α : Type}

def insert [LT κ] [DecidableLT κ] [DecidableEq κ] (key : κ) (value : α) :
    List (κ × α) → List (κ × α)
  | [] => [(key, value)]
  | (k, v) :: rest =>
    if key < k then (key, value) :: (k, v) :: rest
    else if key = k then (key, value) :: rest
    else (k, v) :: insert key value rest

theorem lookup_cons [DecidableEq κ] (k key : κ) (value : α) (m : List (κ × α)) :
    List.lookup k ((key, value) :: m) = if k = key then some value else m.lookup k := by
  rw [List.lookup_cons]
  split <;> simp_all

theorem lookup_insert [LT κ] [DecidableLT κ] [DecidableEq κ] (k key : κ) (value : α)
    (m : List (κ × α)) :
    (insert key value m).lookup k = if k = key then some value else m.lookup k := by
  induction m with
  | nil => exact lookup_cons ..
  | cons first rest ih =>
    obtain ⟨k', v⟩ := first
    rw [insert]
    split
    · exact lookup_cons ..
    · split
      · next heq =>
        rw [lookup_cons, lookup_cons, ← heq]
        split <;> rfl
      · next hne =>
        rw [lookup_cons, lookup_cons, ih]
        split
        · next heq => rw [if_neg (heq ▸ Ne.symm hne)]
        · rfl

def ofList (pairs : List (String × α)) : SortedMap α :=
  pairs.foldl (fun m (key, value) => insert key value m) []

end SortedMap

end PropSchema
