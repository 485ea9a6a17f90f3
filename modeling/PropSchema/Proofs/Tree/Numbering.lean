import PropSchema.Tree.Preorder

namespace PropSchema

namespace Node

inductive Contains : Node → Node → Prop
  | self {n} : Contains n n
  | child {n c m} : c ∈ n.children → Contains c m → Contains n m

theorem Contains.trans {a b c : Node} (h : a.Contains b) (h' : b.Contains c) : a.Contains c := by
  induction h with
  | self => exact h'
  | child hc _ ih => exact .child hc (ih h')

theorem contains_of_mem_children {n c : Node} (h : c ∈ n.children) : n.Contains c := .child h .self

theorem contains_of_mem_parts {n c : Node} (h : c ∈ n.parts) : n.Contains c :=
  contains_of_mem_children (List.mem_filter.1 h).1

theorem contains_of_child? {n c : Node} {f : Field} (h : n.child? f = some c) : n.Contains c :=
  contains_of_mem_children (List.mem_of_find?_eq_some h)

def Numbered (root : Node) : Prop :=
  ∀ a b, root.Contains a → root.Contains b → a.id = b.id → a = b

theorem numbered_empty : Numbered empty := by
  have h : ∀ a, empty.Contains a → a = empty := by
    intro a ha
    cases ha with
    | self => rfl
    | child hc _ => cases hc
  intro a b ha hb _
  rw [h a ha, h b hb]

end Node

namespace Preorder

structure NumberedFrom (first : Nat) (trees : List Node) : Prop where
  le : ∀ r ∈ trees, ∀ a, r.Contains a → first ≤ a.id
  distinct : ∀ r ∈ trees, ∀ s ∈ trees, ∀ a b, r.Contains a → s.Contains b → a.id = b.id → a = b

theorem NumberedFrom.cons {first : Nat} {trees : List Node} (h : NumberedFrom (first + 1) trees)
    (bytes : ByteArray) (item : Item) :
    NumberedFrom first
      (item.node bytes first (trees.take item.arity) :: trees.drop item.arity) := by
  -- a node of the new forest is the new node or a node of the old forest
  have hcases : ∀ r ∈ item.node bytes first (trees.take item.arity) :: trees.drop item.arity,
      ∀ a, r.Contains a →
        a = item.node bytes first (trees.take item.arity) ∨ ∃ s ∈ trees, s.Contains a := by
    intro r hr a ha
    cases hr with
    | tail _ hr => exact .inr ⟨r, List.mem_of_mem_drop hr, ha⟩
    | head =>
      cases ha with
      | self => exact .inl rfl
      | child hc ha => exact .inr ⟨_, List.mem_of_mem_take hc, ha⟩
  refine ⟨fun r hr a ha => ?_, fun r hr s hs a b ha hb hab => ?_⟩
  · cases hcases r hr a ha with
    | inl hnew => rw [hnew]; exact Nat.le_refl first
    | inr hold =>
      obtain ⟨s, hs, ha⟩ := hold
      exact Nat.le_of_succ_le (h.le s hs a ha)
  · cases hcases r hr a ha with
    | inl hnew =>
      cases hcases s hs b hb with
      | inl hnew' => rw [hnew, hnew']
      | inr hold =>
        obtain ⟨s, hs, hb⟩ := hold
        have hlt := h.le s hs b hb
        rw [← hab, hnew] at hlt
        exact absurd hlt (Nat.not_succ_le_self first)
    | inr hold =>
      obtain ⟨r, hr, ha⟩ := hold
      cases hcases s hs b hb with
      | inl hnew =>
        have hlt := h.le r hr a ha
        rw [hab, hnew] at hlt
        exact absurd hlt (Nat.not_succ_le_self first)
      | inr hold =>
        obtain ⟨s, hs, hb⟩ := hold
        exact h.distinct r hr s hs a b ha hb hab

theorem numberedFrom_foldr (bytes : ByteArray) (items : List Item) (first : Nat) :
    NumberedFrom first ((items.zipIdx first).foldr
      (fun (item, id) later =>
        item.node bytes id (later.take item.arity) :: later.drop item.arity) []) := by
  induction items generalizing first with
  | nil => exact ⟨by simp, by simp⟩
  | cons item items ih =>
    rw [List.zipIdx_cons, List.foldr_cons]
    exact (ih (first + 1)).cons bytes item

end Preorder

theorem Node.numbered_of_ofPreorder? {source : String} {items : List Preorder.Item} {root : Node}
    (h : Node.ofPreorder? source items = some root) : root.Numbered := by
  have hforest := Preorder.numberedFrom_foldr source.toUTF8 items 0
  rw [Node.ofPreorder?] at h
  split at h
  · next r hr =>
    cases h
    have hmem : root ∈ Preorder.forest source.toUTF8 items := by
      rw [hr]
      exact List.mem_singleton_self root
    intro a b ha hb hab
    exact hforest.distinct root hmem root hmem a b ha hb hab
  · cases h

theorem Node.numbered_getD (source : String) (items : List Preorder.Item) :
    ((Node.ofPreorder? source items).getD .empty).Numbered := by
  cases h : Node.ofPreorder? source items with
  | none => exact numbered_empty
  | some root => exact numbered_of_ofPreorder? h

end PropSchema
