import TracedTree.Proofs.Check
import TracedTree.Proofs.Valid

/-!
# Looking keys up

A key is looked up by the separators: the search stops at one that equals the key, and enters the
child before the first one that stands behind it. Nothing before a smaller separator and nothing
behind a greater one can equal the key, so the search finds it exactly when some key of the tree
equals it, on whichever side of an equal separator that is.

## Main statements

* `Node.contains_eq`: the search agrees with a scan of all keys.
* `Tree.Valid.contains_iff`: what a valid tree contains, and how many keys it has.
-/

namespace TracedTree

variable {k a : Key} {keys : List Key}

/-- No key equals one that it stands before or behind. -/
theorem Key.same_eq_false_of_lt (h : k.lt a ∨ a.lt k) : k.same a = false := by
  rw [Bool.eq_false_iff]
  rcases h with hlt | hlt
  · exact Key.not_same_of_lt hlt
  · exact fun hsame => Key.not_same_of_lt hlt (Key.same_symm hsame)

/-- A key that differs from another one and does not stand before it stands behind it. -/
theorem Key.lt_of_not_same_of_not_lt (hne : ¬ k.same a) (hlt : ¬ k.lt a) : a.lt k :=
  Key.lt_of_le_of_not_same (Key.not_lt_iff_le.1 hlt) fun hsame => hne (Key.same_symm hsame)

/-- Behind a key that stands behind it no key equals the one that is looked up. -/
theorem any_same_eq_false_behind (hasc : Ascending (a :: keys)) (hlt : k.lt a) :
    (a :: keys).any k.same = false := by
  rw [List.any_eq_false]
  intro b hb
  rw [Bool.not_eq_true]
  refine Key.same_eq_false_of_lt (.inl ?_)
  rcases List.mem_cons.1 hb with rfl | hb
  · exact hlt
  · exact Key.lt_of_lt_of_le hlt ((List.pairwise_cons.1 hasc).1 b hb)

/-- Up to a key that stands before it no key equals the one that is looked up. -/
theorem any_same_eq_false_before (hasc : Ascending (keys ++ [a])) (hlt : a.lt k) :
    (keys ++ [a]).any k.same = false := by
  rw [List.any_eq_false]
  intro b hb
  rw [Bool.not_eq_true]
  refine Key.same_eq_false_of_lt (.inr ?_)
  rcases List.mem_append.1 hb with hb | hb
  · exact Key.lt_of_le_of_lt ((List.pairwise_append.1 hasc).2.2 b hb a List.mem_cons_self) hlt
  · rwa [List.mem_singleton.1 hb]

namespace Node

variable {children : List (Node Key)} {n : Node Key}

/-- The search beside separators agrees with a scan of what stands there, when the search in each
child does. -/
theorem containsBeside_eq (hlen : children.length = keys.length + 1)
    (hasc : Ascending (weave (children.map inorder) keys))
    (hbelow : ∀ c ∈ children, Ascending c.inorder → c.contains k = c.inorder.any k.same) :
    containsBeside k children keys = (weave (children.map inorder) keys).any k.same := by
  induction keys generalizing children with
  | nil =>
      obtain ⟨c, rfl⟩ := List.length_eq_one_iff.1 hlen
      simp only [List.map_cons, List.map_nil, weave_cons_nil, weave_nil, List.append_nil] at hasc ⊢
      exact hbelow c List.mem_cons_self hasc
  | cons separator keys ih =>
      obtain ⟨c, cs, rfl⟩ := List.exists_cons_of_length_eq_add_one hlen
      rw [List.forall_mem_cons] at hbelow
      rw [List.map_cons, weave_cons_cons] at hasc ⊢
      obtain ⟨hbefore, hbehind⟩ := ascending_append_cons.1 hasc
      rw [containsBeside, List.any_append]
      split
      · rename_i hsame
        rw [List.any_cons, hsame, Bool.true_or, Bool.or_true]
      split
      · rename_i hlt
        rw [hbelow.1 (List.pairwise_append.1 hbefore).1, any_same_eq_false_behind hbehind hlt,
          Bool.or_false]
      · rename_i hne hle
        have hlt := Key.lt_of_not_same_of_not_lt hne hle
        have hnone := any_same_eq_false_before hbefore hlt
        rw [List.any_append, Bool.or_eq_false_iff] at hnone
        have hseparator : k.same separator = false := by simpa using hne
        rw [ih (Nat.succ.inj hlen) (List.pairwise_cons.1 hbehind).2 hbelow.2, hnone.1,
          List.any_cons, hseparator, Bool.false_or, Bool.false_or]

/-- **The search agrees with a scan** of the ascending keys of a node that fits its children, as do
all below it. -/
theorem contains_eq (hfits : ∀ m ∈ n.preorder, m.Fits) (hasc : Ascending n.inorder) :
    n.contains k = n.inorder.any k.same := by
  induction n with
  | step id keys children ih =>
      rw [contains]
      split
      · rename_i hleaf
        rw [List.isEmpty_iff.1 hleaf, inorder_leaf]
      · rename_i hinner
        rw [List.isEmpty_iff] at hinner
        have hlen : children.length = keys.length + 1 :=
          (hfits _ (mem_preorder_self _)).resolve_left hinner
        rw [inorder_inner hinner] at hasc ⊢
        exact containsBeside_eq hlen hasc fun c hc =>
          ih c hc fun m hm => hfits m (mem_preorder_of_mem_children hc hm)

/-- Counting the keys node by node and listing them from left to right gives the same number. -/
theorem keyCount_eq (hfits : ∀ m ∈ n.preorder, m.Fits) : n.keyCount = n.inorder.length :=
  (inorder_perm n hfits).length_eq.symm

end Node

namespace Tree

/-- **Looking up agrees with listing.** A valid tree contains a key exactly when the key is of the
tree's kind and equals one of those listed, and its size is their number. -/
theorem Valid.contains_iff {t : Tree} (ht : t.Valid) (k : Key) :
    (t.contains k ↔ k.kind = t.kind ∧ ∃ a ∈ t.keys, k.same a) ∧ t.size = t.keys.length := by
  refine ⟨?_, Node.keyCount_eq ht.fits⟩
  rw [contains, Node.contains_eq ht.fits ht.ascending, Bool.and_eq_true, beq_iff_eq,
    List.any_eq_true]
  rfl

/-- A tree with copies of a key on both sides of a separator that equals it. -/
theorem contains_iff_copies :
    let t : Tree := ⟨2, .number, ⟨3, [.ofInt 2], [⟨1, [.ofInt 1, .ofInt 2], []⟩,
      ⟨2, [.ofInt 2, .ofInt 3], []⟩]⟩, ⟨3, {}⟩, none, by decide⟩
    t.Valid ∧ (t.contains (.ofInt 2) ↔ Kind.number = t.kind ∧ ∃ a ∈ t.keys, (Key.ofInt 2).same a) ∧
      t.size = t.keys.length := by
  intro t
  have ht : t.Valid := (check_eq_ok_iff t).1 (by decide +kernel)
  exact ⟨ht, ht.contains_iff (.ofInt 2)⟩

end Tree

end TracedTree
