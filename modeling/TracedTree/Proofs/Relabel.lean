import TracedTree.Frame
import TracedTree.Proofs.Valid

/-!
# Replacing keys

`Node.map` replaces the keys of a tree and keeps its shape: nodes, identities, heights and depths
are those of the old tree, and the keys from left to right are the old ones replaced one by one. A
picture is a tree whose keys are replaced by their labels, so it shows the labels of all keys in
their order.
-/

namespace TracedTree

namespace Node

variable {α β γ : Type}

@[simp] theorem id_map (f : α → β) (n : Node α) : (n.map f).id = n.id := by
  obtain ⟨id, keys, children⟩ := n
  rw [map_mk]

@[simp] theorem keys_map (f : α → β) (n : Node α) : (n.map f).keys = n.keys.map f := by
  obtain ⟨id, keys, children⟩ := n
  rw [map_mk]

@[simp] theorem children_map (f : α → β) (n : Node α) :
    (n.map f).children = n.children.map (map f) := by
  obtain ⟨id, keys, children⟩ := n
  rw [map_mk]

theorem map_map (f : α → β) (g : β → γ) (n : Node α) :
    (n.map f).map g = n.map (g ∘ f) := by
  induction n with
  | step id keys children ih =>
      simp only [map_mk, List.map_map]
      congr 1
      exact List.map_congr_left fun c hc => ih c hc

theorem preorder_map (f : α → β) (n : Node α) :
    (n.map f).preorder = n.preorder.map (map f) := by
  induction n with
  | step id keys children ih =>
      simp only [map_mk, preorder_mk, List.map_cons, List.flatMap_map, List.map_flatMap]
      congr 1
      exact List.flatMap_congr fun c hc => ih c hc

theorem weave_map (f : α → β) (xs : List (List α)) (ks : List α) :
    weave (xs.map (List.map f)) (ks.map f) = (weave xs ks).map f := by
  induction xs generalizing ks with
  | nil => simp
  | cons x xs ih =>
      cases ks with
      | nil => simpa using ih []
      | cons k ks => simp [ih ks]

/-- The keys from left to right are replaced one by one. -/
theorem inorder_map (f : α → β) (n : Node α) : (n.map f).inorder = n.inorder.map f := by
  induction n with
  | step id keys children ih =>
      rw [map_mk]
      by_cases hnil : children = []
      · simp [hnil]
      · have hbelow : (children.map (map f)).map inorder =
            (children.map inorder).map (List.map f) := by
          rw [List.map_map, List.map_map]
          exact List.map_congr_left fun c hc => ih c hc
        rw [inorder_inner (by simpa using hnil), inorder_inner hnil, hbelow, weave_map]

theorem ids_map (f : α → β) (n : Node α) : (n.map f).ids = n.ids := by
  rw [ids, ids, preorder_map, List.map_map]
  exact List.map_congr_left fun m _ => id_map f m

theorem maxId_map (f : α → β) (n : Node α) : (n.map f).maxId = n.maxId := by
  rw [maxId, maxId, ids_map, id_map]

theorem height_map (f : α → β) (n : Node α) : (n.map f).height = n.height := by
  induction n with
  | step id keys children ih =>
      simp only [height, map_mk, fold_mk, List.map_map] at ih ⊢
      congr 2
      exact List.map_congr_left fun c hc => by simpa using ih c hc

theorem leafDepths_map (f : α → β) (n : Node α) : (n.map f).leafDepths = n.leafDepths := by
  induction n with
  | step id keys children ih =>
      simp only [map_mk, leafDepths_mk, List.isEmpty_map, List.flatMap_map]
      split
      · rfl
      · rw [List.flatMap_congr fun c hc => ih c hc]

theorem fits_map {f : α → β} {n : Node α} : (n.map f).Fits ↔ n.Fits := by
  simp [Fits]

/-! ## Pictures -/

@[simp] theorem picture_mk (id : Nat) (keys : List Key) (children : List (Node Key)) :
    picture ⟨id, keys, children⟩ = ⟨id, keys.map Key.label, children.map picture⟩ := map_mk ..

theorem id_picture (n : Node Key) : n.picture.id = n.id := id_map ..

/-- A picture shows the labels of all keys in their order. -/
theorem inorder_picture (n : Node Key) : n.picture.inorder = n.inorder.map Key.label :=
  inorder_map ..

theorem ids_picture (n : Node Key) : n.picture.ids = n.ids := ids_map ..

end Node

namespace Tree

variable {t : Tree}

/-- A tree stays valid when its keys are replaced by equal ones and its ledger by one that knows
all identities. -/
theorem Valid.relabel (ht : t.Valid) {f : Key → Key} (hf : ∀ k, (f k).same k) {ledger : Ledger}
    (hle : ∀ id ∈ t.root.ids, id ≤ ledger.lastId) (recording : Option (List Frame)) :
    Valid { t with root := t.root.map f, ledger, recording } := by
  have hle' : ∀ a b : Key, a.le b → (f a).le (f b) := by
    intro a b hab
    exact Key.le_trans (Key.same_iff.1 (hf a)).1 (Key.le_trans hab (Key.same_iff.1 (hf b)).2)
  refine ⟨?_, ?_, ?_, ?_, ?_, ?_, ?_, ?_, ?_⟩
  · simp only [Node.preorder_map, List.forall_mem_map, Node.fits_map]
    exact ht.fits
  · simpa using ht.root_keys
  · simpa only [Node.preorder_map, List.forall_mem_map, Node.keys_map, List.length_map]
      using ht.capacity
  · simp only [Node.children_map, List.flatMap_map, Node.preorder_map, List.mem_flatMap,
      List.mem_map]
    rintro _ ⟨c, hc, m, hm, rfl⟩
    rw [Node.keys_map, List.length_map]
    exact ht.occupancy m (List.mem_flatMap.2 ⟨c, hc, hm⟩)
  · simp only [Node.preorder_map, List.forall_mem_map, Node.keys_map]
    intro n hn k hk
    rw [Key.kind_eq_of_same (hf k)]
    exact ht.kinds n hn k hk
  · simp only [keys, Node.inorder_map, List.pairwise_map]
    exact ht.ascending.imp (hle' _ _)
  · simp only [Node.leafDepths_map]
    exact ht.level
  · simp only [Node.ids_map]
    exact ht.ids_nodup
  · simp only [Node.ids_map]
    exact hle

end Tree

end TracedTree
