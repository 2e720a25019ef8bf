import Mathlib.Data.List.Perm.Basic
import TracedTree.Proofs.Balanced
import TracedTree.Proofs.KeyOrder

/-!
# Valid trees are balanced

`Tree.Valid` quantifies over all nodes of a tree and over all its leaves; the operations need the
shape from the root downward. `Tree.valid_iff` translates: a tree is valid when its root is
balanced for some height, does not hold too many keys, and has keys and identities as they should
be.
-/

namespace TracedTree

namespace Node

variable {α : Type} {capacity h : Nat} {n c : Node α}

/-! ## All nodes -/

theorem preorder_eq (n : Node α) : n.preorder = n :: n.children.flatMap preorder := by
  obtain ⟨id, keys, children⟩ := n
  exact preorder_mk id keys children

theorem mem_preorder_self (n : Node α) : n ∈ n.preorder := by
  rw [preorder_eq]
  exact List.mem_cons_self

theorem mem_preorder_of_mem_children {m : Node α} (hc : c ∈ n.children) (hm : m ∈ c.preorder) :
    m ∈ n.preorder := by
  rw [preorder_eq]
  exact List.mem_cons_of_mem _ (List.mem_flatMap.2 ⟨c, hc, hm⟩)

theorem Balanced.fits (hn : n.Balanced capacity h) : n.Fits := by
  cases h with
  | zero => exact .inl (balanced_zero.1 hn)
  | succ h => exact .inr (balanced_succ.1 hn).1

/-- Every node below a balanced one is filled, at some height. -/
theorem Balanced.filled_below (hn : n.Balanced capacity h) :
    ∀ m ∈ n.children.flatMap preorder, ∃ i, m.Filled capacity i := by
  induction h generalizing n with
  | zero => simp [balanced_zero.1 hn]
  | succ h ih =>
      intro m hm
      obtain ⟨c, hc, hm⟩ := List.mem_flatMap.1 hm
      have hfilled := (balanced_succ.1 hn).2 c hc
      rw [preorder_eq] at hm
      rcases List.mem_cons.1 hm with rfl | hm
      · exact ⟨h, hfilled⟩
      · exact ih hfilled.1 m hm

theorem Balanced.fits_all (hn : n.Balanced capacity h) : ∀ m ∈ n.preorder, m.Fits := by
  intro m hm
  rw [preorder_eq] at hm
  rcases List.mem_cons.1 hm with rfl | hm
  · exact hn.fits
  · obtain ⟨i, hi⟩ := hn.filled_below m hm
    exact hi.1.fits

/-! ## Depths -/

theorem leafDepths_mk (id : Nat) (keys : List α) (children : List (Node α)) :
    leafDepths ⟨id, keys, children⟩ =
      if children.isEmpty then [0] else (children.flatMap leafDepths).map (· + 1) := by
  rw [leafDepths, fold_mk, List.isEmpty_map, List.flatMap_def]

/-- Every leaf of a child is one step further down. -/
theorem succ_mem_leafDepths {d : Nat} (hc : c ∈ n.children) (hd : d ∈ c.leafDepths) :
    d + 1 ∈ n.leafDepths := by
  obtain ⟨id, keys, children⟩ := n
  have hne : children.isEmpty = false := by
    rw [List.isEmpty_eq_false_iff]
    exact List.ne_nil_of_mem hc
  rw [leafDepths_mk, hne]
  exact List.mem_map_of_mem (List.mem_flatMap.2 ⟨c, hc, hd⟩)

theorem leafDepths_ne_nil (n : Node α) : n.leafDepths ≠ [] := by
  induction n with
  | step id keys children ih =>
      cases children with
      | nil => simp [leafDepths_mk]
      | cons c children =>
          obtain ⟨d, hd⟩ := List.exists_mem_of_ne_nil _ (ih c List.mem_cons_self)
          exact List.ne_nil_of_mem (succ_mem_leafDepths List.mem_cons_self hd)

/-- The leaves of a balanced node stand at its height. -/
theorem Balanced.leafDepths_eq (hn : n.Balanced capacity h) : ∀ d ∈ n.leafDepths, d = h := by
  induction h generalizing n with
  | zero =>
      obtain ⟨id, keys, children⟩ := n
      obtain rfl : children = [] := hn
      simp [leafDepths_mk]
  | succ h ih =>
      obtain ⟨id, keys, children⟩ := n
      obtain ⟨hlen, hfilled⟩ := balanced_succ.1 hn
      have hne : children.isEmpty = false := by
        rw [List.isEmpty_eq_false_iff]
        exact List.ne_nil_of_length_eq_add_one hlen
      rw [leafDepths_mk, hne]
      intro d hd
      obtain ⟨e, he, rfl⟩ := List.mem_map.1 hd
      obtain ⟨c, hc, he⟩ := List.mem_flatMap.1 he
      rw [ih (hfilled c hc).1 e he]

/-- Where all leaves stand at one depth and every node fits its children, the node is balanced, as
far as the nodes below it keep the limits. -/
theorem exists_balanced (n : Node α) (hfits : ∀ m ∈ n.preorder, m.Fits)
    (hlimits : ∀ m ∈ n.children.flatMap preorder,
      capacity / 2 ≤ m.keys.length ∧ m.keys.length ≤ capacity)
    (hlevel : ∀ d ∈ n.leafDepths, ∀ e ∈ n.leafDepths, d = e) :
    ∃ h, n.Balanced capacity h := by
  induction n with
  | step id keys children ih =>
      by_cases hnil : children = []
      · exact ⟨0, hnil⟩
      have hchild : ∀ c ∈ children, ∃ h, c.Balanced capacity h := by
        intro c hc
        refine ih c hc ?_ ?_ ?_
        · intro m hm
          exact hfits m (mem_preorder_of_mem_children hc hm)
        · intro m hm
          refine hlimits m (List.mem_flatMap.2 ⟨c, hc, ?_⟩)
          rw [preorder_eq]
          exact List.mem_cons_of_mem _ hm
        · intro d hd e he
          exact Nat.succ.inj (hlevel _ (succ_mem_leafDepths hc hd) _ (succ_mem_leafDepths hc he))
      -- The leaves of all children stand at the depth of those of the first one.
      obtain ⟨c, hc⟩ := List.exists_mem_of_ne_nil _ hnil
      obtain ⟨h, hh⟩ := hchild c hc
      obtain ⟨d, hd⟩ := List.exists_mem_of_ne_nil _ (leafDepths_ne_nil c)
      refine ⟨h + 1, balanced_succ.2 ⟨?_, ?_⟩⟩
      · exact (hfits _ (mem_preorder_self _)).resolve_left hnil
      · intro e he
        obtain ⟨i, hi⟩ := hchild e he
        obtain ⟨d', hd'⟩ := List.exists_mem_of_ne_nil _ (leafDepths_ne_nil e)
        have hlevel' := hlevel _ (succ_mem_leafDepths hc hd) _ (succ_mem_leafDepths he hd')
        obtain rfl : h = i := by
          rw [← hh.leafDepths_eq d hd, ← hi.leafDepths_eq d' hd']
          exact Nat.succ.inj hlevel'
        exact ⟨hi, hlimits e (List.mem_flatMap.2 ⟨e, he, mem_preorder_self e⟩)⟩

/-! ## Heights -/

theorem height_le_iff {id : Nat} {keys : List α} {children : List (Node α)} :
    height ⟨id, keys, children⟩ ≤ h ↔ ∀ c ∈ children, c.height < h := by
  have hheight : height ⟨id, keys, children⟩ =
      ((children.map fun c => c.height + 1).max?).getD 0 := by
    rw [height, fold_mk, List.map_map]
    rfl
  rw [hheight]
  cases hmax : (children.map fun c => c.height + 1).max? with
  | none =>
      obtain rfl : children = [] := by simpa using hmax
      simp
  | some m =>
      rw [Option.getD_some, List.max?_le_iff hmax, List.forall_mem_map]
      rfl

theorem height_lt_of_mem (hc : c ∈ n.children) : c.height < n.height := by
  obtain ⟨id, keys, children⟩ := n
  exact height_le_iff.1 (Nat.le_refl _) c hc

/-- The height of a balanced node. -/
theorem Balanced.height_eq (hn : n.Balanced capacity h) : n.height = h := by
  induction h generalizing n with
  | zero =>
      obtain ⟨id, keys, children⟩ := n
      obtain rfl : children = [] := hn
      exact Nat.le_zero.1 (height_le_iff.2 nofun)
  | succ h ih =>
      obtain ⟨id, keys, children⟩ := n
      obtain ⟨hlen, hfilled⟩ := balanced_succ.1 hn
      obtain ⟨c, hc⟩ := List.exists_mem_of_ne_nil _ (List.ne_nil_of_length_eq_add_one hlen)
      refine Nat.le_antisymm (height_le_iff.2 fun d hd => ?_) ?_
      · rw [ih (hfilled d hd).1]
        exact Nat.lt_succ_self h
      · rw [← ih (hfilled c hc).1]
        exact height_lt_of_mem hc

/-! ## Keys -/

/-- From left to right come the keys of all nodes. -/
theorem inorder_perm (n : Node α) (hfits : ∀ m ∈ n.preorder, m.Fits) :
    n.inorder.Perm (n.preorder.flatMap keys) := by
  induction n with
  | step id keys children ih =>
      rw [preorder_mk, List.flatMap_cons]
      by_cases hnil : children = []
      · simp [hnil]
      have hlen : children.length = keys.length + 1 :=
        (hfits _ (mem_preorder_self _)).resolve_left hnil
      have hbelow : (children.map inorder).flatten.Perm
          ((children.flatMap preorder).flatMap Node.keys) := by
        rw [List.flatMap_assoc, ← List.flatMap_def]
        refine List.Perm.flatMap_left _ fun c hc => ih c hc fun m hm => ?_
        exact hfits m (mem_preorder_of_mem_children hc hm)
      rw [inorder_inner hnil]
      have hweave : keys.length ≤ (children.map inorder).length := by
        rw [List.length_map]
        omega
      exact (weave_perm hweave).trans (List.perm_append_comm.trans (hbelow.append_left keys))

/-- The separators of a node that fits its children stand in order among what hangs below. -/
theorem keys_sublist_weave {xs : List (List α)} {ks : List α} (h : ks.length ≤ xs.length) :
    ks.Sublist (weave xs ks) := by
  induction xs generalizing ks with
  | nil =>
      obtain rfl : ks = [] := List.length_eq_zero_iff.1 (Nat.le_zero.1 h)
      exact List.nil_sublist _
  | cons x xs ih =>
      cases ks with
      | nil => exact List.nil_sublist _
      | cons k ks =>
          rw [weave_cons_cons]
          exact ((ih (Nat.le_of_succ_le_succ h)).cons_cons k).trans
            (List.sublist_append_right x _)

theorem Fits.keys_sublist_inorder (hn : n.Fits) : n.keys.Sublist n.inorder := by
  obtain ⟨id, keys, children⟩ := n
  rcases hn with hnil | hlen
  · obtain rfl : children = [] := hnil
    rw [inorder_leaf]
  · have hne : children ≠ [] := List.ne_nil_of_length_eq_add_one hlen
    rw [inorder_inner hne]
    refine keys_sublist_weave ?_
    simp only [List.length_map] at hlen ⊢
    omega

theorem sublist_weave_of_mem {x : List α} {xs : List (List α)} (hx : x ∈ xs) (ks : List α) :
    x.Sublist (weave xs ks) := by
  induction xs generalizing ks with
  | nil => simp at hx
  | cons y xs ih =>
      cases ks with
      | nil =>
          rw [weave_cons_nil]
          rcases List.mem_cons.1 hx with rfl | hx
          · exact List.sublist_append_left x _
          · exact (ih hx []).trans (List.sublist_append_right y _)
      | cons k ks =>
          rw [weave_cons_cons]
          rcases List.mem_cons.1 hx with rfl | hx
          · exact List.sublist_append_left x _
          · exact ((ih hx ks).cons k).trans (List.sublist_append_right y _)

/-- What hangs below a node stands in order among all keys. -/
theorem inorder_sublist (n : Node α) : ∀ m ∈ n.preorder, m.inorder.Sublist n.inorder := by
  induction n with
  | step id keys children ih =>
      intro m hm
      rw [preorder_mk] at hm
      rcases List.mem_cons.1 hm with rfl | hm
      · exact List.Sublist.refl _
      · obtain ⟨c, hc, hm⟩ := List.mem_flatMap.1 hm
        rw [inorder_inner (List.ne_nil_of_mem hc)]
        exact (ih c hc m hm).trans (sublist_weave_of_mem (List.mem_map_of_mem hc) keys)

end Node

namespace Tree

open Node

theorem Valid.kind_of_mem_keys {t : Tree} (ht : t.Valid) : ∀ k ∈ t.keys, k.kind = t.kind := by
  intro k hk
  obtain ⟨m, hm, hk⟩ := List.mem_flatMap.1 ((inorder_perm t.root ht.fits).mem_iff.1 hk)
  exact ht.kinds m hm k hk

/-- A tree is valid when its root is balanced and the keys and identities are in order. -/
theorem valid_iff (t : Tree) :
    t.Valid ↔ ∃ h, t.root.Balanced t.maxKeys h ∧ t.root.keys.length ≤ t.maxKeys ∧
      (t.root.children ≠ [] → t.root.keys ≠ []) ∧ Ascending t.keys ∧
      (∀ k ∈ t.keys, k.kind = t.kind) ∧ t.root.ids.Nodup ∧
      ∀ id ∈ t.root.ids, id ≤ t.ledger.lastId := by
  constructor
  · intro ht
    have hlimits : ∀ m ∈ t.root.children.flatMap preorder,
        t.maxKeys / 2 ≤ m.keys.length ∧ m.keys.length ≤ t.maxKeys := by
      intro m hm
      refine ⟨ht.occupancy m hm, ht.capacity m ?_⟩
      rw [preorder_eq]
      exact List.mem_cons_of_mem _ hm
    obtain ⟨h, hh⟩ := exists_balanced t.root ht.fits hlimits ht.level
    refine ⟨h, hh, ht.capacity _ (mem_preorder_self _), ht.root_keys, ht.ascending,
      ht.kind_of_mem_keys, ht.ids_nodup, ht.ids_le⟩
  · rintro ⟨h, hh, hlen, hroot, hasc, hkinds, hnodup, hle⟩
    refine ⟨hh.fits_all, hroot, ?_, ?_, ?_, hasc, ?_, hnodup, hle⟩
    · intro m hm
      rw [preorder_eq] at hm
      rcases List.mem_cons.1 hm with rfl | hm
      · exact hlen
      · obtain ⟨i, hi⟩ := hh.filled_below m hm
        exact hi.2.2
    · intro m hm
      obtain ⟨i, hi⟩ := hh.filled_below m hm
      exact hi.2.1
    · intro m hm k hk
      refine hkinds k ((inorder_perm t.root hh.fits_all).mem_iff.2 ?_)
      exact List.mem_flatMap.2 ⟨m, hm, hk⟩
    · intro d hd e he
      rw [hh.leafDepths_eq d hd, hh.leafDepths_eq e he]

/-- Every node of a valid tree holds its own keys in ascending order. -/
theorem Valid.ascending_node {t : Tree} (ht : t.Valid) :
    ∀ n ∈ t.root.preorder, Ascending n.keys := by
  intro n hn
  have hkeys := (ht.fits n hn).keys_sublist_inorder
  exact ht.ascending.sublist (hkeys.trans (inorder_sublist t.root n hn))

end Tree

end TracedTree
