import TracedTree.Node.Remove
import TracedTree.Proofs.Insert
import TracedTree.Proofs.Repair

/-!
# Removal below a node

A removal never fails on a balanced node whose root holds a key. Either the key is there, and one
occurrence of it is gone afterwards, or it is not, and nothing has changed. On the way the node
entered may come out one key short, and the repair by its parent makes up for that: this is the
step `exists_shrunk_repair`, which the extraction of a predecessor and the removal share.

## Main definitions

* `Node.Shrunk capacity h ledger n m l`: the node `m` is what is left of `n`, at most one key short.
* `Removal.Accounts k ledger n r`: the removal `r` took one `k` out of `n`, or there was none.
-/

namespace TracedTree

namespace Node

variable {capacity h : Nat} {k : Key} {ledger l : Ledger}

/-! ## One step -/

/-- What is left of a node keeps the shape and has lost at most one key of its own, and the
identities that are gone are those of merged nodes. -/
structure Shrunk (capacity h : Nat) (ledger : Ledger) (n m : Node Key) (l : Ledger) : Prop where
  balanced : m.Balanced capacity h
  length_le : m.keys.length ≤ n.keys.length
  le_length : n.keys.length ≤ m.keys.length + 1
  dropped : Dropped ledger l n.ids m.ids

theorem Shrunk.refl {n : Node Key} (hn : n.Balanced capacity h) (ledger : Ledger) :
    Shrunk capacity h ledger n n ledger :=
  ⟨hn, Nat.le_refl _, Nat.le_succ _, .refl ledger n.ids⟩

section Step

variable {before after others : List Key} {left right : List (Node Key)} {c d : Node Key}

/-- The parent of a child that has shrunk can be repaired. The separators behind the child may have
changed meanwhile. -/
theorem exists_repaired_of_shrunk (ho : Opened capacity h before after left right)
    (hc : c.Filled capacity h) (hd : Shrunk capacity h ledger c d l)
    (hothers : others.length = after.length) (hne : before ++ after ≠ []) (id : Nat) :
    ∃ m l', repair ⟨id, before ++ others, left ++ d :: right⟩ (capacity / 2) before.length l =
        .ok (m, l') ∧
      Repaired capacity h l ⟨id, before ++ others, left ++ d :: right⟩ m l' := by
  have hopen : Opened capacity h before others left right :=
    ⟨ho.left_length, ho.right_length.trans hothers.symm, ho.siblings⟩
  have hne' : before ++ others ≠ [] := by
    intro hnil
    obtain ⟨rfl, rfl⟩ := List.append_eq_nil_iff.1 hnil
    exact hne (by simpa using hothers.symm)
  obtain ⟨-, hlow, hhigh⟩ := hc
  exact exists_repaired hopen hd.balanced (Nat.le_trans hlow hd.le_length)
    (Nat.le_trans hd.length_le hhigh) hne' id l

/-- After such a repair the parent has shrunk at most by one key itself. -/
theorem exists_shrunk_repair (ho : Opened capacity h before after left right)
    (hc : c.Filled capacity h) (hd : Shrunk capacity h ledger c d l)
    (hothers : others.length = after.length) (hne : before ++ after ≠ []) (id : Nat) :
    ∃ m l', repair ⟨id, before ++ others, left ++ d :: right⟩ (capacity / 2) before.length l =
        .ok (m, l') ∧
      Shrunk capacity (h + 1) ledger ⟨id, before ++ after, left ++ c :: right⟩ m l' ∧
      m.inorder = weave (left.map inorder) before ++ d.inorder ++
        weave ([] :: right.map inorder) others := by
  obtain ⟨m, l', hm, hr⟩ := exists_repaired_of_shrunk ho hc hd hothers hne id
  refine ⟨m, l', hm, ⟨hr.balanced, ?_, ?_, ?_⟩, ?_⟩
  · have := hr.length_le.1
    simp only [List.length_append] at this ⊢
    omega
  · have := hr.length_le.2
    simp only [List.length_append] at this ⊢
    omega
  · refine Dropped.trans ?_ hr.dropped
    have hids := hd.dropped.within (id :: left.flatMap ids) (right.flatMap ids)
    simpa [ids_mk] using hids
  · rw [hr.inorder_eq, inorder_open ho.left_length]

end Step

/-! ## The largest key -/

theorem removeMax_leaf (minimum : Nat) (ledger : Ledger) (id : Nat) {keys : List Key}
    (hne : keys ≠ []) : removeMax minimum ledger ⟨id, keys, []⟩ =
      .ok ⟨keys.getLast hne, ⟨id, keys.dropLast, []⟩, ledger⟩ := by
  simp [removeMax, removeLast, List.getLast?_eq_some_getLast hne]

theorem removeMaxAt_append (minimum : Nat) (ledger : Ledger) (left : List (Node Key)) (c : Node Key)
    (right : List (Node Key)) :
    removeMaxAt minimum ledger left.length (left ++ c :: right) =
      removeMax minimum ledger c := by
  induction left with
  | nil => rfl
  | cons d left ih => exact ih

/-- An inner node takes the largest key out of its last child and repairs it. -/
theorem removeMax_opened {minimum : Nat} {keys : List Key} {left : List (Node Key)} {c m : Node Key}
    {e : Extraction} {id : Nat} (h : left.length = keys.length)
    (he : c.removeMax minimum ledger = .ok e)
    (hm : repair ⟨id, keys, left ++ [e.node]⟩ minimum keys.length e.ledger = .ok (m, l)) :
    removeMax minimum ledger ⟨id, keys, left ++ [c]⟩ = .ok ⟨e.key, m, l⟩ := by
  have hat := removeMaxAt_append minimum ledger left c []
  have hchild := withChild_append (Eq.refl left.length) [] id keys c e.node
  rw [← h] at hm
  rw [removeMax]
  simp [hat, he, hchild, hm]

/-- The largest key below a node with keys can be taken out. -/
theorem exists_removeMax (hcap : 2 ≤ capacity) {n : Node Key} (hn : n.Balanced capacity h)
    (hne : n.keys ≠ []) (ledger : Ledger) :
    ∃ e, n.removeMax (capacity / 2) ledger = .ok e ∧
      Shrunk capacity h ledger n e.node e.ledger ∧ n.inorder = e.node.inorder ++ [e.key] := by
  induction h generalizing n with
  | zero =>
      obtain ⟨id, keys, children⟩ := n
      obtain rfl : children = [] := hn
      obtain ⟨keys, x, rfl⟩ : ∃ rest x, keys = rest ++ [x] :=
        ⟨_, _, (List.dropLast_concat_getLast hne).symm⟩
      refine ⟨⟨x, ⟨id, keys, []⟩, ledger⟩, ?_, ⟨rfl, by simp, by simp, ?_⟩, by simp⟩
      · simp [removeMax, removeLast]
      · simpa [ids_mk] using Dropped.refl ledger [id]
  | succ h ih =>
      obtain ⟨left, c, hn', hopen, hc⟩ := hn.opened_last
      obtain ⟨e, he, hshrunk, hinorder⟩ := ih hc.1 (hc.keys_ne_nil hcap)
      obtain ⟨m, l, hm, hm', hm''⟩ := exists_shrunk_repair hopen hc hshrunk rfl (by simpa) n.id
      simp only [List.append_nil] at hn' hm hm'
      rw [hn']
      refine ⟨⟨e.key, m, l⟩, ?_, hm', ?_⟩
      · exact removeMax_opened hopen.left_length he hm
      · have hopened := @inorder_open _ n.id n.keys [] left [] hopen.left_length c
        rw [List.append_nil] at hopened
        rw [hopened, hm'', hinorder]
        simp

/-! ## Finding the key -/

theorem removeAt_append (minimum : Nat) (ledger : Ledger) (left : List (Node Key)) (c : Node Key)
    (right : List (Node Key)) :
    removeAt minimum k ledger left.length (left ++ c :: right) = remove minimum k ledger c := by
  induction left with
  | nil => rfl
  | cons d left ih => exact ih

/-- The slot of a key is that of the first equal one. -/
theorem slotOf?_eq_some {n : Node Key} {i : Nat} (hi : n.slotOf? k = some i) :
    ∃ before a after, n.keys = before ++ a :: after ∧ before.length = i ∧ k.same a := by
  obtain ⟨hlt, hsame, -⟩ := List.findIdx?_eq_some_iff_getElem.1 hi
  refine ⟨n.keys.take i, n.keys[i], n.keys.drop (i + 1), ?_, ?_, Key.same_symm hsame⟩
  · rw [← List.drop_eq_getElem_cons hlt, List.take_append_drop]
  · rw [List.length_take]
    omega

theorem slotOf?_eq_none {n : Node Key} (hi : n.slotOf? k = none) :
    ∀ a ∈ n.keys, ¬ k.same a := by
  intro a ha
  have := List.findIdx?_eq_none_iff.1 hi a ha
  simpa [Key.same_comm k a] using this

theorem withPredecessor_append {before after : List Key} {left right : List (Node Key)}
    (h : left.length = before.length) (id : Nat) (a : Key) (c : Node Key) (e : Extraction) :
    withPredecessor ⟨id, before ++ a :: after, left ++ c :: right⟩ before.length e =
      ⟨id, before ++ e.key :: after, left ++ e.node :: right⟩ := by
  simp [withPredecessor, ← h]

end Node

/-- What a removal does to the keys of a node: it takes one equal key out and says so, or it says
that there is none and changes nothing. -/
inductive Removal.Accounts (k : Key) (ledger : Ledger) (n : Node Key) : Removal → Prop where
  | found {m : Node Key} {l : Ledger} (h : Removed k n.inorder m.inorder) :
      Accounts k ledger n ⟨true, m, l⟩
  | absent (h : ∀ a ∈ n.inorder, ¬ k.same a) : Accounts k ledger n ⟨false, n, ledger⟩

namespace Node

variable {capacity h : Nat} {k : Key} {ledger : Ledger}

/-- In a leaf the key is among the keys of the node, or nowhere. -/
theorem accounts_removeFromLeaf (id : Nat) (keys : List Key) (ledger : Ledger) :
    (removeFromLeaf ⟨id, keys, []⟩ k ledger).Accounts k ledger ⟨id, keys, []⟩ ∧
      Shrunk capacity 0 ledger ⟨id, keys, []⟩ (removeFromLeaf ⟨id, keys, []⟩ k ledger).node
        (removeFromLeaf ⟨id, keys, []⟩ k ledger).ledger := by
  cases hslot : slotOf? ⟨id, keys, []⟩ k with
  | none =>
      simp only [removeFromLeaf, hslot]
      have hn : Balanced capacity 0 (⟨id, keys, []⟩ : Node Key) := rfl
      refine ⟨.absent ?_, .refl hn ledger⟩
      rw [inorder_leaf]
      exact slotOf?_eq_none hslot
  | some i =>
      obtain ⟨before, a, after, hkeys, rfl, hsame⟩ := slotOf?_eq_some hslot
      simp only at hkeys
      subst hkeys
      simp only [removeFromLeaf, hslot, List.eraseIdx_append_of_length_le (Nat.le_refl _),
        Nat.sub_self, List.eraseIdx_cons_zero]
      refine ⟨.found ?_, ⟨rfl, ?_, ?_, ?_⟩⟩
      · rw [inorder_leaf, inorder_leaf]
        exact ⟨before, a, after, rfl, rfl, hsame⟩
      · simp
      · simp only [List.length_append, List.length_cons]
        omega
      · simpa [ids_mk] using Dropped.refl ledger [id]

section Inner

variable {n : Nat} {before after : List Key} {left right : List (Node Key)} {c : Node Key}

theorem remove_opened_separator {minimum : Nat} {a : Key} {e : Extraction} {m : Node Key}
    {l : Ledger} {id : Nat} (h : left.length = before.length)
    (hslot : slotOf? ⟨id, before ++ a :: after, left ++ c :: right⟩ k = some before.length)
    (he : c.removeMax minimum ledger = .ok e)
    (hm : repair ⟨id, before ++ e.key :: after, left ++ e.node :: right⟩ minimum before.length
      e.ledger = .ok (m, l)) :
    remove minimum k ledger ⟨id, before ++ a :: after, left ++ c :: right⟩ = .ok ⟨true, m, l⟩ := by
  have hat := removeMaxAt_append minimum ledger left c right
  rw [h] at hat
  rw [remove]
  simp [hslot, hat, he, withPredecessor_append h, hm]

theorem remove_opened_child {minimum : Nat} {r : Removal} {m : Node Key} {l : Ledger} {id : Nat}
    (h : left.length = before.length) (hroute : Route k before after)
    (hslot : slotOf? ⟨id, before ++ after, left ++ c :: right⟩ k = none)
    (hr : remove minimum k ledger c = .ok r)
    (hm : repair ⟨id, before ++ after, left ++ r.node :: right⟩ minimum before.length r.ledger =
      .ok (m, l)) :
    remove minimum k ledger ⟨id, before ++ after, left ++ c :: right⟩ = .ok ⟨r.found, m, l⟩ := by
  have hat := removeAt_append (k := k) minimum ledger left c right
  rw [h] at hat
  have hi : childIndex ⟨id, before ++ after, left ++ c :: right⟩ k = before.length := by
    simp only [childIndex, hroute.takeWhile_eq]
  rw [remove]
  simp [hslot, hi, hat, hr, withChild_append h, hm]

/-- In an inner node a separator that equals the key gives its place to its predecessor. -/
theorem exists_remove_separator {a : Key} (hcap : 2 ≤ capacity)
    (ho : Opened capacity h before (a :: after) left right) (hc : c.Filled capacity h)
    (hsame : k.same a) (id : Nat)
    (hslot : slotOf? ⟨id, before ++ a :: after, left ++ c :: right⟩ k = some before.length) :
    ∃ r, remove (capacity / 2) k ledger ⟨id, before ++ a :: after, left ++ c :: right⟩ = .ok r ∧
      Shrunk capacity (h + 1) ledger ⟨id, before ++ a :: after, left ++ c :: right⟩ r.node
        r.ledger ∧
      r.Accounts k ledger ⟨id, before ++ a :: after, left ++ c :: right⟩ := by
  have hne := hc.keys_ne_nil hcap
  obtain ⟨e, he, hshrunk, hinorder⟩ := exists_removeMax hcap hc.1 hne ledger
  have hothers : (e.key :: after).length = (a :: after).length := rfl
  obtain ⟨m, l, hm, hm', hm''⟩ := exists_shrunk_repair ho hc hshrunk hothers (by simp) id
  refine ⟨⟨true, m, l⟩, ?_, hm', .found ?_⟩
  · exact remove_opened_separator ho.left_length hslot he hm
  · -- The predecessor stays where it was; it is the separator behind it that is gone.
    obtain ⟨d, right, rfl⟩ := List.exists_cons_of_length_eq_add_one ho.right_length
    rw [inorder_open ho.left_length, hm'', hinorder]
    refine ⟨weave (left.map inorder) before ++ (e.node.inorder ++ [e.key]), a,
      weave ((d :: right).map inorder) after, ?_, ?_, hsame⟩
    · simp
    · simp

/-- Where no separator equals the key, only the child that the separators lead to can hold it. -/
theorem not_same_of_mem_around (hroute : Route k before after)
    (ho : Opened capacity h before after left right)
    (hasc : Ascending (inorder ⟨n, before ++ after, left ++ c :: right⟩))
    (habsent : ∀ a ∈ before ++ after, ¬ k.same a) :
    (∀ a ∈ weave (left.map inorder) before, ¬ k.same a) ∧
      ∀ b ∈ weave ([] :: right.map inorder) after, ¬ k.same b := by
  rw [inorder_open ho.left_length] at hasc
  refine ⟨fun a ha hsame => ?_, fun b hb => Key.not_same_of_lt ?_⟩
  · exact Key.not_same_of_lt ((hroute.bounds ho hasc).1 a ha) (Key.same_symm hsame)
  · cases after with
    | nil =>
        obtain rfl : right = [] := List.length_eq_zero_iff.1 ho.right_length
        simp at hb
    | cons s rest =>
        have hs : k.lt s := Key.lt_of_le_of_not_same hroute.le_head (habsent s (by simp))
        rw [weave_cons_cons, List.nil_append] at hb hasc
        rcases List.mem_cons.1 hb with rfl | hb
        · exact hs
        · have hright := (List.pairwise_append.1 hasc).2.1
          exact Key.lt_of_lt_of_le hs ((List.pairwise_cons.1 hright).1 b hb)

/-- In an inner node whose separators differ from the key, the child that they lead to decides. -/
theorem exists_remove_child (ho : Opened capacity h before after left right)
    (hc : c.Filled capacity h) (hroute : Route k before after) (hne : before ++ after ≠ [])
    (hasc : Ascending (inorder ⟨n, before ++ after, left ++ c :: right⟩))
    (hslot : slotOf? ⟨n, before ++ after, left ++ c :: right⟩ k = none) {r : Removal}
    (hr : remove (capacity / 2) k ledger c = .ok r)
    (hshrunk : Shrunk capacity h ledger c r.node r.ledger) (hacc : r.Accounts k ledger c) :
    ∃ r, remove (capacity / 2) k ledger ⟨n, before ++ after, left ++ c :: right⟩ = .ok r ∧
      Shrunk capacity (h + 1) ledger ⟨n, before ++ after, left ++ c :: right⟩ r.node r.ledger ∧
      r.Accounts k ledger ⟨n, before ++ after, left ++ c :: right⟩ := by
  cases hacc with
  | @found m l hremoved =>
      obtain ⟨m', l', hm, hm', hm''⟩ := exists_shrunk_repair ho hc hshrunk rfl hne n
      refine ⟨⟨true, m', l'⟩, remove_opened_child ho.left_length hroute hslot hr hm, hm', .found ?_⟩
      · rw [inorder_open ho.left_length, hm'']
        exact hremoved.within _ _
  | absent hnone =>
      have hm := repair_of_le ho.left_length hc.2.1 n (before ++ after) right ledger
      refine ⟨⟨false, ⟨n, before ++ after, left ++ c :: right⟩, ledger⟩,
        remove_opened_child ho.left_length hroute hslot hr hm, .refl (ho.balanced hc n) ledger,
        .absent ?_⟩
      · obtain ⟨hl, hr⟩ := not_same_of_mem_around hroute ho hasc (slotOf?_eq_none hslot)
        rw [inorder_open ho.left_length]
        simp only [List.mem_append]
        rintro a ((ha | ha) | ha)
        · exact hl a ha
        · exact hnone a ha
        · exact hr a ha

end Inner

/-- **Removal below a balanced node.** It succeeds, keeps the shape, and accounts for the key. -/
theorem exists_remove (hcap : 2 ≤ capacity) {n : Node Key} (hn : n.Balanced capacity h)
    (hne : n.children ≠ [] → n.keys ≠ []) (hasc : Ascending n.inorder) (ledger : Ledger) :
    ∃ r, n.remove (capacity / 2) k ledger = .ok r ∧
      Shrunk capacity h ledger n r.node r.ledger ∧ r.Accounts k ledger n := by
  induction h generalizing n with
  | zero =>
      obtain ⟨id, keys, children⟩ := n
      obtain rfl : children = [] := hn
      obtain ⟨hacc, hshrunk⟩ := accounts_removeFromLeaf (k := k) id keys ledger
      exact ⟨_, by rw [remove]; rfl, hshrunk, hacc⟩
  | succ h ih =>
      have hkeys := hn.keys_ne_nil hne
      cases hslot : n.slotOf? k with
      | some i =>
          obtain ⟨before, a, after, hsplit, rfl, hsame⟩ := slotOf?_eq_some hslot
          obtain ⟨left, c, right, hn', hopen, hc⟩ := hn.opened hsplit
          rw [hn'] at hslot ⊢
          exact exists_remove_separator hcap hopen hc hsame n.id hslot
      | none =>
          obtain ⟨before, after, hsplit, hroute⟩ := exists_route k n.keys
          obtain ⟨left, c, right, hn', hopen, hc⟩ := hn.opened hsplit
          rw [hn'] at hslot hasc ⊢
          rw [hsplit] at hkeys
          have hcasc : Ascending c.inorder := by
            rw [inorder_open hopen.left_length] at hasc
            exact ascending_middle hasc
          obtain ⟨r, hr, hshrunk, hacc⟩ := ih hc.1 (fun _ => hc.keys_ne_nil hcap) hcasc
          exact exists_remove_child hopen hc hroute hkeys hasc hslot hr hshrunk hacc

end Node

end TracedTree
