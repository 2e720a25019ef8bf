import Mathlib.Algebra.Group.Action.Defs
import Mathlib.Algebra.Order.BigOperators.Group.List
import Mathlib.Algebra.Order.Ring.Nat
import TracedTree.Proofs.Lookup
import TracedTree.Proofs.Relabel
import TracedTree.Tree.Stats

/-!
# How many keys a tree holds

The limits of a node multiply from level to level: every node passes its keys on as one child more
than it holds. So the number of keys, increased by one, lies between a power of the least and one
of the greatest number of children, and the height is logarithmic in it. The statistics of a tree
are counted on its picture, where nodes without keys are skipped; only an empty root is one.

## Main statements

* `Node.Balanced.mul_pow_le_length`, `Node.Balanced.length_le_mul_pow`: the limits level by level.
* `Tree.Valid.key_count_bounds`: the number of keys, the height and the statistics of a tree.
-/

namespace TracedTree

namespace Node

variable {α β : Type} {capacity h : Nat} {n : Node α}

/-! ## Keys and levels -/

/-- Increased by one each, the numbers of keys of the children add up to that of the node. -/
theorem length_inorder_inner {id : Nat} {keys : List α} {children : List (Node α)}
    (hlen : children.length = keys.length + 1) :
    (inorder ⟨id, keys, children⟩).length + 1 =
      (children.map fun c => c.inorder.length + 1).sum := by
  have hne : children ≠ [] := List.ne_nil_of_length_eq_add_one hlen
  have hweave : keys.length ≤ (children.map inorder).length := by
    rw [List.length_map]
    omega
  have hsum : (children.map fun c => c.inorder.length + 1).sum =
      (children.map fun c => c.inorder.length).sum + children.length := by
    rw [List.sum_map_add]
    simp
  rw [inorder_inner hne, (weave_perm hweave).length_eq, hsum, List.length_append,
    List.length_flatten, List.map_map, hlen]
  rfl

/-- A balanced node holds at least as many keys as its own number of keys and the least numbers
below it give. -/
theorem Balanced.mul_pow_le_length (hn : n.Balanced capacity h) :
    (n.keys.length + 1) * (capacity / 2 + 1) ^ h ≤ n.inorder.length + 1 := by
  induction h generalizing n with
  | zero =>
      obtain ⟨id, keys, children⟩ := n
      obtain rfl : children = [] := hn
      simp
  | succ h ih =>
      obtain ⟨id, keys, children⟩ := n
      obtain ⟨hlen, hfilled⟩ := balanced_succ.1 hn
      have hchild : ∀ x ∈ children.map (fun c => c.inorder.length + 1),
          (capacity / 2 + 1) ^ (h + 1) ≤ x := by
        rw [List.forall_mem_map]
        intro c hc
        calc (capacity / 2 + 1) ^ (h + 1) = (capacity / 2 + 1) * (capacity / 2 + 1) ^ h :=
              Nat.pow_succ'
          _ ≤ (c.keys.length + 1) * (capacity / 2 + 1) ^ h :=
              Nat.mul_le_mul_right _ (Nat.succ_le_succ (hfilled c hc).2.1)
          _ ≤ c.inorder.length + 1 := ih (hfilled c hc).1
      have hsum := List.card_nsmul_le_sum _ _ hchild
      rwa [List.length_map, smul_eq_mul, hlen, ← length_inorder_inner hlen] at hsum

/-- A balanced node holds at most as many keys as its own number of keys and the greatest numbers
below it give. -/
theorem Balanced.length_le_mul_pow (hn : n.Balanced capacity h) :
    n.inorder.length + 1 ≤ (n.keys.length + 1) * (capacity + 1) ^ h := by
  induction h generalizing n with
  | zero =>
      obtain ⟨id, keys, children⟩ := n
      obtain rfl : children = [] := hn
      simp
  | succ h ih =>
      obtain ⟨id, keys, children⟩ := n
      obtain ⟨hlen, hfilled⟩ := balanced_succ.1 hn
      have hchild : ∀ x ∈ children.map (fun c => c.inorder.length + 1),
          x ≤ (capacity + 1) ^ (h + 1) := by
        rw [List.forall_mem_map]
        intro c hc
        calc c.inorder.length + 1 ≤ (c.keys.length + 1) * (capacity + 1) ^ h := ih (hfilled c hc).1
          _ ≤ (capacity + 1) * (capacity + 1) ^ h :=
              Nat.mul_le_mul_right _ (Nat.succ_le_succ (hfilled c hc).2.2)
          _ = (capacity + 1) ^ (h + 1) := Nat.pow_succ'.symm
      have hsum := List.sum_le_card_nsmul _ _ hchild
      rwa [List.length_map, smul_eq_mul, hlen, ← length_inorder_inner hlen] at hsum

/-! ## Keys and nodes -/

theorem keyCount_eq_sum (n : Node α) :
    n.keyCount = (n.preorder.map fun m => m.keys.length).sum := List.length_flatMap

/-- Nodes of at most so many keys hold at most so many times their number. -/
theorem keyCount_le (hcap : ∀ m ∈ n.preorder, m.keys.length ≤ capacity) :
    n.keyCount ≤ n.nodeCount * capacity := by
  have hsum := List.sum_le_card_nsmul (n.preorder.map fun m => m.keys.length) capacity
    (List.forall_mem_map.2 hcap)
  rwa [List.length_map, smul_eq_mul, ← keyCount_eq_sum] at hsum

/-- Below a node there is one node less, and each of them holds its least number of keys. -/
theorem le_keyCount {least : Nat}
    (hlow : ∀ m ∈ n.children.flatMap preorder, least ≤ m.keys.length) :
    (n.nodeCount - 1) * least + n.keys.length ≤ n.keyCount := by
  have hsum := List.card_nsmul_le_sum ((n.children.flatMap preorder).map fun m => m.keys.length)
    least (List.forall_mem_map.2 hlow)
  rw [List.length_map, smul_eq_mul] at hsum
  rw [keyCount_eq_sum, nodeCount, preorder_eq, List.length_cons, Nat.add_sub_cancel,
    List.map_cons, List.sum_cons]
  omega

/-! ## Counting on pictures -/

theorem holderCount_map (f : α → β) (n : Node α) : (n.map f).holderCount = n.holderCount := by
  rw [holderCount, holderCount, preorder_map, List.countP_map]
  exact List.countP_congr fun m _ => by simp

theorem keyCount_map (f : α → β) (n : Node α) : (n.map f).keyCount = n.keyCount := by
  rw [keyCount_eq_sum, keyCount_eq_sum, preorder_map, List.map_map]
  congr 1
  exact List.map_congr_left fun m _ => by simp

end Node

namespace Tree

open Node

variable {t : Tree}

/-- The nodes that hold keys are all nodes, as long as the root is one of them; otherwise there is
nothing below it. -/
theorem Valid.holderCount_eq (ht : t.Valid) : t.root.holderCount = t.nodeCount := by
  have hcap := t.two_le_maxKeys
  rw [Tree.nodeCount, isEmpty]
  cases hroot : t.root.keys with
  | nil =>
      have hleaf : t.root.children = [] := by
        by_contra hinner
        exact ht.root_keys hinner hroot
      simp [holderCount, preorder_eq, hleaf, hroot]
  | cons k keys =>
      have hholds : ∀ m ∈ t.root.preorder, (!m.keys.isEmpty) = true := by
        rw [preorder_eq, List.forall_mem_cons]
        refine ⟨by simp [hroot], fun m hm => ?_⟩
        have hlow := ht.occupancy m hm
        rw [minKeys] at hlow
        rw [Bool.not_eq_true', List.isEmpty_eq_false_iff, ← List.length_pos_iff]
        omega
      rw [holderCount, List.countP_eq_length.2 hholds]
      rfl

/-- What the statistics of a valid tree report. -/
theorem Valid.stats_eq (ht : t.Valid) :
    t.stats.height = t.height ∧ t.stats.nodeCount = t.nodeCount ∧ t.stats.keyCount = t.size := by
  refine ⟨height_map .., ?_, keyCount_map ..⟩
  rw [← ht.holderCount_eq]
  exact holderCount_map ..

/-- **The height is logarithmic in the number of keys**, and the statistics are consistent with it.
Increased by one, the number of keys is at most the power of the greatest number of children to
the number of levels; above leaves it is at least twice the power of the least number of children
to the height. The statistics report the height, the nodes and the keys of the tree. Every node but
the root of a tree with keys holds at least half of the capacity, and none more than the
capacity. -/
theorem Valid.key_count_bounds (ht : t.Valid) :
    t.size + 1 ≤ (t.maxKeys + 1) ^ (t.height + 1) ∧
    (1 ≤ t.height → 2 * (t.maxKeys / 2 + 1) ^ t.height ≤ t.size + 1) ∧
    (t.stats.height = t.height ∧ t.stats.nodeCount = t.nodeCount ∧ t.stats.keyCount = t.size) ∧
    (t.isEmpty = false → (t.nodeCount - 1) * (t.maxKeys / 2) + 1 ≤ t.size ∧
      t.size ≤ t.nodeCount * t.maxKeys) := by
  obtain ⟨h, hbal, hlen, hroot, -⟩ := t.valid_iff.1 ht
  have hheight : t.height = h := hbal.height_eq
  have hsize : t.size = t.root.inorder.length := keyCount_eq ht.fits
  refine ⟨?_, fun hinner => ?_, ht.stats_eq, fun hkeys => ?_⟩
  · rw [hheight, hsize]
    calc t.root.inorder.length + 1 ≤ (t.root.keys.length + 1) * (t.maxKeys + 1) ^ h :=
          hbal.length_le_mul_pow
      _ ≤ (t.maxKeys + 1) * (t.maxKeys + 1) ^ h :=
          Nat.mul_le_mul_right _ (Nat.succ_le_succ hlen)
      _ = (t.maxKeys + 1) ^ (h + 1) := Nat.pow_succ'.symm
  · rw [hheight] at hinner ⊢
    rw [hsize]
    obtain ⟨i, rfl⟩ := Nat.exists_eq_add_of_le' hinner
    have hpos : 1 ≤ t.root.keys.length := List.length_pos_iff.2 (hbal.keys_ne_nil hroot)
    exact (Nat.mul_le_mul_right _ (Nat.succ_le_succ hpos)).trans hbal.mul_pow_le_length
  · have hpos : 1 ≤ t.root.keys.length := by
      rw [isEmpty, List.isEmpty_eq_false_iff, ← List.length_pos_iff] at hkeys
      exact hkeys
    have hnodes : t.nodeCount = t.root.nodeCount := by simp [Tree.nodeCount, hkeys]
    rw [hnodes]
    exact ⟨(Nat.add_le_add_left hpos _).trans (le_keyCount ht.occupancy), keyCount_le ht.capacity⟩

/-- A tree of three levels that holds as few keys as it can. -/
theorem key_count_bounds_three_levels :
    let t : Tree := ⟨2, .number, ⟨7, [.ofInt 4],
      [⟨5, [.ofInt 2], [⟨1, [.ofInt 1], []⟩, ⟨2, [.ofInt 3], []⟩]⟩,
        ⟨6, [.ofInt 6], [⟨3, [.ofInt 5], []⟩, ⟨4, [.ofInt 7], []⟩]⟩]⟩, ⟨7, {}⟩, none, by decide⟩
    t.Valid ∧ 1 ≤ t.height ∧ t.isEmpty = false ∧
    t.size + 1 ≤ (t.maxKeys + 1) ^ (t.height + 1) ∧
    (1 ≤ t.height → 2 * (t.maxKeys / 2 + 1) ^ t.height ≤ t.size + 1) ∧
    (t.stats.height = t.height ∧ t.stats.nodeCount = t.nodeCount ∧ t.stats.keyCount = t.size) ∧
    (t.isEmpty = false → (t.nodeCount - 1) * (t.maxKeys / 2) + 1 ≤ t.size ∧
      t.size ≤ t.nodeCount * t.maxKeys) := by
  intro t
  have ht : t.Valid := (check_eq_ok_iff t).1 (by decide +kernel)
  exact ⟨ht, by decide, by decide, ht.key_count_bounds⟩

end Tree

end TracedTree
