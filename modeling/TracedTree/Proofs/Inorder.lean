import TracedTree.Tree.Valid

/-!
# Keys from left to right

How `Node.inorder` reacts when a node is opened. Opened at a child it is what stands left of the
child, the keys of the child, and what stands right of it. Two nodes joined by a key give their
keys one after the other with the key between them, for leaves and inner nodes alike.
-/

namespace TracedTree

namespace Node

variable {α : Type}

/-! ## Weaving -/

@[simp] theorem weave_nil (keys : List α) : weave [] keys = [] := by cases keys <;> rfl

@[simp] theorem weave_cons_nil (below : List α) (rest : List (List α)) :
    weave (below :: rest) [] = below ++ weave rest [] := rfl

@[simp] theorem weave_cons_cons (below : List α) (rest : List (List α)) (k : α) (keys : List α) :
    weave (below :: rest) (k :: keys) = below ++ k :: weave rest keys := rfl

theorem weave_cons_append (x y : List α) (rest : List (List α)) (keys : List α) :
    weave ((x ++ y) :: rest) keys = x ++ weave (y :: rest) keys := by
  cases keys <;> simp

/-- What the first child holds comes first. -/
theorem weave_cons (x : List α) (rest : List (List α)) (keys : List α) :
    weave (x :: rest) keys = x ++ weave ([] :: rest) keys := by
  rw [← weave_cons_append, List.append_nil]

theorem weave_append {xs : List (List α)} {ks : List α} (h : xs.length = ks.length)
    (ys : List (List α)) (ls : List α) :
    weave (xs ++ ys) (ks ++ ls) = weave xs ks ++ weave ys ls := by
  induction xs generalizing ks with
  | nil =>
      have hk : ks = [] := List.length_eq_zero_iff.1 h.symm
      simp [hk]
  | cons x xs ih =>
      obtain ⟨k, ks, rfl⟩ := List.exists_cons_of_length_eq_add_one h.symm
      simp [ih (Nat.succ.inj h)]

/-- Where every separator has a child on its left, nothing is left out. -/
theorem weave_perm {xs : List (List α)} {ks : List α} (h : ks.length ≤ xs.length) :
    (weave xs ks).Perm (xs.flatten ++ ks) := by
  induction xs generalizing ks with
  | nil =>
      have hk : ks = [] := List.length_eq_zero_iff.1 (Nat.le_zero.1 h)
      simp [hk]
  | cons x xs ih =>
      cases ks with
      | nil => simpa using (@ih [] (Nat.zero_le _)).append_left x
      | cons k ks =>
          have hrest := ih (Nat.le_of_succ_le_succ h)
          simp only [weave_cons_cons, List.flatten_cons, List.append_assoc]
          exact ((hrest.cons k).trans List.perm_middle.symm).append_left x

/-! ## Opening a node -/

theorem inorder_mk (id : Nat) (keys : List α) (children : List (Node α)) :
    inorder ⟨id, keys, children⟩ =
      if (children.map inorder).isEmpty then keys else weave (children.map inorder) keys :=
  fold_mk ..

@[simp] theorem inorder_leaf (id : Nat) (keys : List α) : inorder ⟨id, keys, []⟩ = keys := by
  simp [inorder_mk]

theorem inorder_inner {children : List (Node α)} (h : children ≠ []) (id : Nat)
    (keys : List α) : inorder ⟨id, keys, children⟩ = weave (children.map inorder) keys := by
  simp [inorder_mk, h]

/-- A node opened at a child. -/
theorem inorder_open {id : Nat} {before after : List α} {left right : List (Node α)}
    (h : left.length = before.length) (c : Node α) :
    inorder ⟨id, before ++ after, left ++ c :: right⟩ =
      weave (left.map inorder) before ++ c.inorder ++ weave ([] :: right.map inorder) after := by
  rw [inorder_inner (by simp), List.map_append, weave_append (by simpa using h), List.map_cons,
    weave_cons, List.append_assoc]

/-- Two nodes joined by a key. The identities are free, since keys do not depend on them. -/
theorem inorder_join {keys others : List α} {children more : List (Node α)}
    (h : children = [] ∧ more = [] ∨ children.length = keys.length + 1 ∧ more ≠ [])
    (id i j : Nat) (k : α) :
    inorder ⟨id, keys ++ k :: others, children ++ more⟩ =
      inorder ⟨i, keys, children⟩ ++ k :: inorder ⟨j, others, more⟩ := by
  rcases h with ⟨rfl, rfl⟩ | ⟨hlen, hmore⟩
  · simp
  · have hchildren : children ≠ [] := by
      intro hnil
      simp [hnil] at hlen
    rw [← List.dropLast_concat_getLast hchildren] at hlen ⊢
    have hinit : children.dropLast.length = keys.length := by simpa using hlen
    have hleft := @inorder_open _ i keys [] _ [] hinit (children.getLast hchildren)
    have hwhole := @inorder_open _ id keys (k :: others) _ more hinit
      (children.getLast hchildren)
    rw [List.append_nil] at hleft
    rw [List.append_assoc, List.singleton_append, hwhole, hleft, inorder_inner hmore]
    simp

/-! ## Identities -/

theorem ids_mk (id : Nat) (keys : List α) (children : List (Node α)) :
    ids ⟨id, keys, children⟩ = id :: children.flatMap ids := by
  simp [ids, preorder_mk, List.map_flatMap]
  rfl

/-- The identities do not depend on the keys of a node. -/
theorem ids_with_keys (n : Node α) (keys : List α) : ids ⟨n.id, keys, n.children⟩ = n.ids := by
  obtain ⟨id, keys', children⟩ := n
  rw [ids_mk, ids_mk]

/-- What a part has more than another one, the whole has more as well. -/
theorem perm_around {xs ys zs : List α} (h : xs.Perm (ys ++ zs)) (left right : List α) :
    (left ++ xs ++ right).Perm (left ++ ys ++ right ++ zs) := by
  have hleft : (left ++ xs).Perm (left ++ ys ++ zs) := by
    rw [List.append_assoc]
    exact h.append_left left
  have hright : (zs ++ right).Perm (right ++ zs) := List.perm_append_comm
  refine (hleft.append_right right).trans ?_
  rw [List.append_assoc _ zs, List.append_assoc _ right]
  exact hright.append_left _

end Node

end TracedTree
