import TracedTree.Node.Repair
import TracedTree.Proofs.Balanced
import TracedTree.Proofs.Results

/-!
# Repairs keep keys in order and nodes balanced

A repair acts on a seam. Joining two nodes by the key between them is what a merge does, and a
rotation divides the keys and the children of that one node in another way; so both leave the keys
from left to right as they are. For this it is enough that the two are leaves both or fit their
children both. `Node.exists_repaired` is the rule for callers in a balanced tree: a child that is at
most one key short is repaired, in one of the ways that `Node.Repaired` lists.

## Main definitions

* `Node.Peers a b`: both are leaves, or both have one more child than keys.
* `Seam.Between capacity h s`: both children of the seam are balanced, all others filled.
* `Seam.Shifted s t`: what the two rotations have in common.
* `Seam.Rotated capacity h s t`: the same, and both children are balanced afterwards.
* `Node.Repaired capacity h n ledger m l`: the node stays, is merged at a seam, or is rotated.
-/

namespace TracedTree

open Node (Opened)

variable {capacity h : Nat}

namespace Node

variable {α : Type} {a b : Node α}

/-! ## Peers -/

/-- Two nodes are leaves both, or both have one more child than keys. -/
def Peers (a b : Node α) : Prop :=
  a.children = [] ∧ b.children = [] ∨
    a.children.length = a.keys.length + 1 ∧ b.children.length = b.keys.length + 1

theorem Peers.isLeaf_eq (h : a.Peers b) : a.isLeaf = b.isLeaf := by
  rcases h with ⟨ha, hb⟩ | ⟨ha, hb⟩
  · rw [isLeaf, isLeaf, ha, hb]
  · rw [isLeaf, isLeaf, List.isEmpty_eq_false_iff.2 (List.ne_nil_of_length_eq_add_one ha),
      List.isEmpty_eq_false_iff.2 (List.ne_nil_of_length_eq_add_one hb)]

/-- Balanced nodes of one height are peers. -/
theorem Balanced.peers (ha : a.Balanced capacity h) (hb : b.Balanced capacity h) : a.Peers b := by
  cases h with
  | zero => exact .inl ⟨ha, hb⟩
  | succ h => exact .inr ⟨(balanced_succ.1 ha).1, (balanced_succ.1 hb).1⟩

/-- The keys of two peers and a key between them are those of one node with their children. -/
theorem Peers.inorder_join (h : a.Peers b) (id : Nat) (k : α) :
    inorder ⟨id, a.keys ++ k :: b.keys, a.children ++ b.children⟩ =
      a.inorder ++ k :: b.inorder := by
  obtain ⟨i, ks, cs⟩ := a
  obtain ⟨j, ls, ds⟩ := b
  refine Node.inorder_join ?_ id i j k
  rcases h with h | ⟨ha, hb⟩
  · exact .inl h
  · exact .inr ⟨ha, List.ne_nil_of_length_eq_add_one hb⟩

/-- The identities of two nodes, their own in front. -/
theorem ids_append (a b : Node α) :
    (a.ids ++ b.ids).Perm (a.id :: b.id :: (a.children ++ b.children).flatMap ids) := by
  obtain ⟨i, ks, cs⟩ := a
  obtain ⟨j, ls, ds⟩ := b
  rw [ids_mk, ids_mk, List.flatMap_append]
  exact List.perm_middle.cons i

end Node

namespace Seam

/-- The surroundings of the seam are those of an opened node, and both children are balanced. -/
structure Between (capacity h : Nat) (s : Seam) : Prop where
  opened : Opened capacity h s.keysBefore s.keysAfter s.childrenBefore s.childrenAfter
  left : s.left.Balanced capacity h
  right : s.right.Balanced capacity h

theorem Between.peers {s : Seam} (hs : s.Between capacity h) : s.left.Peers s.right :=
  hs.left.peers hs.right

theorem seam?_close {s : Seam} (hs : s.childrenBefore.length = s.keysBefore.length) :
    s.close.seam? s.keysBefore.length = some s := by
  simp [Node.seam?, close, ← hs]

variable {s t : Seam}

/-! ## Keys of a seam -/

theorem inorder_close (hs : s.childrenBefore.length = s.keysBefore.length) :
    s.close.inorder = Node.weave (s.childrenBefore.map Node.inorder) s.keysBefore ++
      (s.left.inorder ++ s.separator :: s.right.inorder) ++
      Node.weave ([] :: s.childrenAfter.map Node.inorder) s.keysAfter := by
  rw [close, Node.inorder_open hs, List.map_cons, Node.weave_cons_cons, Node.weave_cons]
  simp

theorem inorder_merge (hs : s.childrenBefore.length = s.keysBefore.length) :
    s.merge.inorder = Node.weave (s.childrenBefore.map Node.inorder) s.keysBefore ++
      s.joined.inorder ++
      Node.weave ([] :: s.childrenAfter.map Node.inorder) s.keysAfter := by
  rw [merge, Node.inorder_open hs]

/-! ## Merging -/

theorem Between.balanced_joined (hs : s.Between capacity h) : s.joined.Balanced capacity h := by
  obtain ⟨id, before, separator, after, cb, ⟨i, ks, cs⟩, ⟨j, ls, ds⟩, ca⟩ := s
  exact hs.left.join hs.right i separator

theorem Between.inorder_joined (hs : s.Between capacity h) :
    s.joined.inorder = s.left.inorder ++ s.separator :: s.right.inorder :=
  hs.peers.inorder_join s.left.id s.separator

/-- A merge drops the identity of the right child. -/
theorem ids_joined (s : Seam) :
    (s.left.ids ++ s.right.ids).Perm (s.joined.ids ++ [s.right.id]) := by
  obtain ⟨id, before, separator, after, cb, ⟨i, ks, cs⟩, ⟨j, ls, ds⟩, ca⟩ := s
  simp only [joined, Node.ids_mk, List.flatMap_append, List.perm_iff_count, List.count_append,
    List.count_cons, List.count_nil]
  intro x
  omega

/-! ## Rotating -/

/-- The two children stay two, and another key stands between them. Together the three have the
keys that they had before, and the two the children, in the same order. -/
structure Shifted (s t : Seam) : Prop where
  around : t = { s with separator := t.separator, left := t.left, right := t.right }
  left_id : t.left.id = s.left.id
  right_id : t.right.id = s.right.id
  keys : t.left.keys ++ t.separator :: t.right.keys = s.left.keys ++ s.separator :: s.right.keys
  children : t.left.children ++ t.right.children = s.left.children ++ s.right.children

/-- No identity is gained or lost when a key is shifted. -/
theorem Shifted.perm_ids (h : s.Shifted t) :
    (t.left.ids ++ t.right.ids).Perm (s.left.ids ++ s.right.ids) := by
  refine (Node.ids_append t.left t.right).trans (.trans ?_ (Node.ids_append s.left s.right).symm)
  rw [h.left_id, h.right_id, h.children]

theorem shifted_right (h : s.rotateRight? = some t) : s.Shifted t := by
  obtain ⟨raised, hraised, rfl⟩ := Option.map_eq_some_iff.1 h
  refine ⟨rfl, rfl, rfl, ?_, ?_⟩
  · obtain ⟨keys, hkeys⟩ := List.getLast?_eq_some_iff.1 hraised
    simp [hkeys]
  · rcases List.eq_nil_or_concat s.left.children with hnil | ⟨rest, c, hlast⟩
    · simp [hnil]
    · simp [hlast]

theorem shifted_left (h : s.rotateLeft? = some t) : s.Shifted t := by
  obtain ⟨raised, hraised, rfl⟩ := Option.map_eq_some_iff.1 h
  obtain ⟨keys, hkeys⟩ : ∃ keys, s.right.keys = raised :: keys := List.head?_eq_some_iff.1 hraised
  refine ⟨rfl, rfl, rfl, by simp [hkeys], ?_⟩
  cases hchildren : s.right.children <;> simp

/-- The last key of the left child goes through the parent, and its last child with it. -/
theorem exists_shifted_right (hs : s.left.Peers s.right) (hne : s.left.keys ≠ []) :
    ∃ t, s.rotateRight? = some t ∧ s.Shifted t ∧ t.left.Peers t.right ∧
      t.left.keys.length + 1 = s.left.keys.length ∧
      t.right.keys.length = s.right.keys.length + 1 := by
  obtain ⟨id, before, separator, after, cb, ⟨i, ks, cs⟩, ⟨j, ls, ds⟩, ca⟩ := s
  obtain ⟨keys, raised, rfl⟩ : ∃ keys raised, ks = keys ++ [raised] :=
    ⟨_, _, (List.dropLast_concat_getLast hne).symm⟩
  have hrotate : rotateRight? ⟨id, before, separator, after, cb, ⟨i, keys ++ [raised], cs⟩,
      ⟨j, ls, ds⟩, ca⟩ = some ⟨id, before, raised, after, cb, ⟨i, keys, cs.dropLast⟩,
        ⟨j, separator :: ls, cs.getLast?.toList ++ ds⟩, ca⟩ := by
    simp [rotateRight?]
  refine ⟨_, hrotate, shifted_right hrotate, ?_, by simp, by simp⟩
  rcases hs with ⟨hcs, hds⟩ | ⟨hcs, hds⟩
  · obtain rfl : cs = [] := hcs
    obtain rfl : ds = [] := hds
    exact .inl ⟨rfl, rfl⟩
  · have hne := List.ne_nil_of_length_eq_add_one hcs
    obtain ⟨rest, c, rfl⟩ : ∃ rest c, cs = rest ++ [c] :=
      ⟨_, _, (List.dropLast_concat_getLast hne).symm⟩
    simp only [List.length_append, List.length_singleton] at hcs hds
    exact .inr ⟨by simpa using hcs, by simpa using hds⟩

/-- The first key of the right child goes through the parent, and its first child with it. -/
theorem exists_shifted_left (hs : s.left.Peers s.right) (hne : s.right.keys ≠ []) :
    ∃ t, s.rotateLeft? = some t ∧ s.Shifted t ∧ t.left.Peers t.right ∧
      t.left.keys.length = s.left.keys.length + 1 ∧
      t.right.keys.length + 1 = s.right.keys.length := by
  obtain ⟨id, before, separator, after, cb, ⟨i, ks, cs⟩, ⟨j, ls, ds⟩, ca⟩ := s
  obtain ⟨raised, keys, rfl⟩ : ∃ raised keys, ls = raised :: keys :=
    List.exists_cons_of_ne_nil hne
  have hrotate : rotateLeft? ⟨id, before, separator, after, cb, ⟨i, ks, cs⟩,
      ⟨j, raised :: keys, ds⟩, ca⟩ = some ⟨id, before, raised, after, cb,
        ⟨i, ks ++ [separator], cs ++ ds.head?.toList⟩, ⟨j, keys, ds.tail⟩, ca⟩ := by
    simp [rotateLeft?]
  refine ⟨_, hrotate, shifted_left hrotate, ?_, by simp, by simp⟩
  rcases hs with ⟨hcs, hds⟩ | ⟨hcs, hds⟩
  · obtain rfl : cs = [] := hcs
    obtain rfl : ds = [] := hds
    exact .inl ⟨rfl, rfl⟩
  · obtain ⟨d, rest, rfl⟩ : ∃ d rest, ds = d :: rest :=
      List.exists_cons_of_length_eq_add_one hds
    simp only [List.length_cons] at hcs hds
    exact .inr ⟨by simpa using hcs, by simpa using hds⟩

/-- Peers that were shifted hold the same keys from left to right as before. -/
theorem Shifted.inorder_eq (h : s.Shifted t) (hs : s.left.Peers s.right)
    (ht : t.left.Peers t.right) :
    t.left.inorder ++ t.separator :: t.right.inorder =
      s.left.inorder ++ s.separator :: s.right.inorder := by
  rw [← ht.inorder_join s.id, ← hs.inorder_join s.id, h.keys, h.children]

/-- A rotation changes the two children and the key between them, but neither what they hold
together nor anything around them. -/
structure Rotated (capacity h : Nat) (s t : Seam) : Prop where
  around : t = { s with separator := t.separator, left := t.left, right := t.right }
  left : t.left.Balanced capacity h
  right : t.right.Balanced capacity h
  inorder : t.left.inorder ++ t.separator :: t.right.inorder =
    s.left.inorder ++ s.separator :: s.right.inorder
  ids : (t.left.ids ++ t.right.ids).Perm (s.left.ids ++ s.right.ids)

/-- Balanced children that were shifted are balanced still. -/
theorem Between.rotated (hs : s.Between capacity h) (hshift : s.Shifted t)
    (ht : t.left.Peers t.right) : s.Rotated capacity h t := by
  have hbalanced : t.left.Balanced capacity h ∧ t.right.Balanced capacity h := by
    have hchildren := hshift.children
    cases h with
    | zero =>
        rw [Node.balanced_zero.1 hs.left, Node.balanced_zero.1 hs.right] at hchildren
        exact List.append_eq_nil_iff.1 hchildren
    | succ h =>
        obtain ⟨hlen, hleft⟩ := Node.balanced_succ.1 hs.left
        obtain ⟨-, hright⟩ := Node.balanced_succ.1 hs.right
        have hfilled : ∀ c ∈ t.left.children ++ t.right.children, c.Filled capacity h := by
          rw [hchildren]
          exact List.forall_mem_append.2 ⟨hleft, hright⟩
        rw [List.forall_mem_append] at hfilled
        rcases ht with ⟨hl, hr⟩ | ⟨hl, hr⟩
        · have hne := List.ne_nil_of_length_eq_add_one hlen
          rw [hl, hr] at hchildren
          exact absurd (List.append_eq_nil_iff.1 hchildren.symm).1 hne
        · exact ⟨⟨hl, hfilled.1⟩, ⟨hr, hfilled.2⟩⟩
  exact ⟨hshift.around, hbalanced.1, hbalanced.2, hshift.inorder_eq hs.peers ht, hshift.perm_ids⟩

theorem Between.rotateRight (hs : s.Between capacity h) (hne : s.left.keys ≠ []) :
    ∃ t, s.rotateRight? = some t ∧ Rotated capacity h s t ∧
      t.left.keys.length + 1 = s.left.keys.length ∧
      t.right.keys.length = s.right.keys.length + 1 := by
  obtain ⟨t, ht, hshift, hpeers, hlengths⟩ := exists_shifted_right hs.peers hne
  exact ⟨t, ht, hs.rotated hshift hpeers, hlengths⟩

theorem Between.rotateLeft (hs : s.Between capacity h) (hne : s.right.keys ≠ []) :
    ∃ t, s.rotateLeft? = some t ∧ Rotated capacity h s t ∧
      t.left.keys.length = s.left.keys.length + 1 ∧
      t.right.keys.length + 1 = s.right.keys.length := by
  obtain ⟨t, ht, hshift, hpeers, hlengths⟩ := exists_shifted_left hs.peers hne
  exact ⟨t, ht, hs.rotated hshift hpeers, hlengths⟩

end Seam

/-- Some identities were dropped, one for every merge that the ledger has counted. No identity was
handed out and no division counted. -/
def Dropped (ledger l : Ledger) (ids rest : List Nat) : Prop :=
  ∃ dropped, ids.Perm (rest ++ dropped) ∧ l.lastId = ledger.lastId ∧
    l.counters.merges = ledger.counters.merges + dropped.length ∧
    l.counters.splits = ledger.counters.splits

theorem Dropped.refl (ledger : Ledger) (ids : List Nat) : Dropped ledger ledger ids ids :=
  ⟨[], by simp⟩

theorem Dropped.trans {ledger l l' : Ledger} {ids rest rest' : List Nat}
    (h : Dropped ledger l ids rest) (h' : Dropped l l' rest rest') :
    Dropped ledger l' ids rest' := by
  obtain ⟨ds, hperm, hid, hm, hs⟩ := h
  obtain ⟨es, hperm', hid', hm', hs'⟩ := h'
  refine ⟨es ++ ds, ?_, hid'.trans hid, ?_, hs'.trans hs⟩
  · rw [← List.append_assoc]
    exact hperm.trans (hperm'.append_right ds)
  · rw [hm', hm, List.length_append]
    omega

/-- What is dropped from a part is dropped from the whole. -/
theorem Dropped.within {ledger l : Ledger} {ids rest : List Nat} (h : Dropped ledger l ids rest)
    (left right : List Nat) : Dropped ledger l (left ++ ids ++ right) (left ++ rest ++ right) := by
  obtain ⟨ds, hperm, hledger⟩ := h
  exact ⟨ds, Node.perm_around hperm left right, hledger⟩

namespace Node

/-- The outcomes of a repair: the node stays as it is, or two neighbouring children of it are
merged, or a key is rotated between them. -/
inductive Repaired (capacity h : Nat) (ledger : Ledger) : Node Key → Node Key → Ledger → Prop where
  | keep {n : Node Key} (hn : n.Balanced capacity (h + 1)) :
      Repaired capacity h ledger n n ledger
  | merge {s : Seam} (hs : s.Between capacity h) (hj : s.joined.Filled capacity h) :
      Repaired capacity h ledger s.close s.merge ledger.merge
  | rotate {s t : Seam} (hs : s.Between capacity h) (ht : s.Rotated capacity h t)
      (hl : t.left.Filled capacity h) (hr : t.right.Filled capacity h) :
      Repaired capacity h ledger s.close t.close (ledger.rotation (h != 0))

section Repaired

variable {ledger l : Ledger} {n m : Node Key}

theorem Repaired.balanced (hr : Repaired capacity h ledger n m l) :
    m.Balanced capacity (h + 1) := by
  cases hr with
  | keep hn => exact hn
  | @merge s hs hj => exact hs.opened.balanced hj s.id
  | @rotate s t hs ht hl hr =>
      rw [ht.around]
      exact hs.opened.balanced_halves hl hr s.id t.separator

theorem Repaired.inorder_eq (hr : Repaired capacity h ledger n m l) : m.inorder = n.inorder := by
  cases hr with
  | keep hn => rfl
  | @merge s hs hj =>
      have hlen := hs.opened.left_length
      rw [Seam.inorder_merge hlen, hs.inorder_joined, Seam.inorder_close hlen]
  | @rotate s t hs ht hl hr =>
      have hlen := hs.opened.left_length
      have hlen' : t.childrenBefore.length = t.keysBefore.length := by
        rw [ht.around]
        exact hlen
      rw [Seam.inorder_close hlen', ht.inorder, Seam.inorder_close hlen, ht.around]

/-- A repair takes at most one key from the node. -/
theorem Repaired.length_le (hr : Repaired capacity h ledger n m l) :
    m.keys.length ≤ n.keys.length ∧ n.keys.length ≤ m.keys.length + 1 := by
  cases hr with
  | keep hn => exact ⟨Nat.le_refl _, Nat.le_succ _⟩
  | @merge s hs hj =>
      simp only [Seam.close, Seam.merge, List.length_append, List.length_cons]
      omega
  | @rotate s t hs ht hl hr =>
      rw [ht.around]
      simp only [Seam.close, List.length_append, List.length_cons]
      omega

/-- A repair drops an identity when it merges, and none otherwise. -/
theorem Repaired.dropped (hr : Repaired capacity h ledger n m l) :
    Dropped ledger l n.ids m.ids := by
  cases hr with
  | keep hn => exact .refl ledger n.ids
  | @merge s hs hj =>
      refine ⟨[s.right.id], ?_, rfl, rfl, rfl⟩
      have hwhole := perm_around (Seam.ids_joined s) (s.id :: s.childrenBefore.flatMap ids)
        (s.childrenAfter.flatMap ids)
      simpa [Seam.close, Seam.merge, ids_mk] using hwhole
  | @rotate s t hs ht hl hr =>
      refine ⟨[], ?_, by cases h <;> rfl, by cases h <;> rfl, by cases h <;> rfl⟩
      have hwhole := (ht.ids.symm.append_left (s.id :: s.childrenBefore.flatMap ids)).append_right
        (s.childrenAfter.flatMap ids)
      rw [ht.around]
      simpa [Seam.close, ids_mk] using hwhole

end Repaired

/-! ## Which repair is made -/

section Choice

variable {ledger : Ledger} {s : Seam}

theorem leftSibling?_append {α : Type} {left : List (Node α)} {i : Nat} (h : left.length = i)
    (id : Nat) (keys : List α) (right : List (Node α)) :
    leftSibling? ⟨id, keys, left ++ right⟩ i = left.getLast? := by
  cases i with
  | zero => simp [leftSibling?, List.length_eq_zero_iff.1 h]
  | succ i =>
      rw [leftSibling?, List.getElem?_append_left (by omega), List.getLast?_eq_getElem?, h]
      rfl

/-- The plan for a child that is too small, by the sizes of its neighbours. -/
theorem repairFor_of_lt {minimum i : Nat} {left : List (Node Key)} {c : Node Key}
    (hi : left.length = i) (hc : c.keys.length < minimum) (id : Nat) (keys : List Key)
    (right : List (Node Key)) :
    repairFor ⟨id, keys, left ++ c :: right⟩ minimum i =
      if left.getLast?.map (·.keys.length) = some minimum then .ok .mergeLeft
      else if right.head?.map (·.keys.length) = some minimum then .ok .mergeRight
      else if (left.getLast?.map (·.keys.length)).any (minimum < ·) then .ok .rotateRight
      else if (right.head?.map (·.keys.length)).any (minimum < ·) then .ok .rotateLeft
      else .error (.noUsableSibling c.id) := by
  have hchild : (left ++ c :: right)[i]? = some c := by simp [← hi]
  have hnext : (left ++ c :: right)[i + 1]? = right.head? := by
    rw [List.getElem?_append_right (by omega), ← hi]
    simp [List.head?_eq_getElem?]
  simp [repairFor, leftSibling?_append hi, hchild, hnext, Nat.not_le.2 hc]

/-- Merging a filled child and one that is a key short fills one child. -/
theorem filled_joined (hs : s.Between capacity h)
    (hlen : s.left.keys.length + s.right.keys.length + 1 = 2 * (capacity / 2)) :
    s.joined.Filled capacity h := by
  refine ⟨hs.balanced_joined, ?_, ?_⟩ <;>
    simp only [Seam.joined, List.length_append, List.length_cons] <;> omega

/-- A child that is one key short, with a filled neighbour on its left that is chosen unless the
right one is merged. -/
theorem exists_repaired_left (hs : s.Between capacity h)
    (hl : s.left.Filled capacity h) (hr : s.right.keys.length + 1 = capacity / 2)
    (hother : s.left.keys.length ≠ capacity / 2 →
      s.childrenAfter.head?.map (·.keys.length) ≠ some (capacity / 2)) :
    ∃ m l, s.close.repair (capacity / 2) (s.keysBefore.length + 1) ledger = .ok (m, l) ∧
      Repaired capacity h ledger s.close m l := by
  have hlen := hs.opened.left_length
  have hindex : (s.childrenBefore ++ [s.left]).length = s.keysBefore.length + 1 := by simp [hlen]
  have hshort : s.right.keys.length < capacity / 2 := by omega
  have hplan := repairFor_of_lt hindex hshort s.id (s.keysBefore ++ s.separator :: s.keysAfter)
    s.childrenAfter
  rw [List.append_assoc, List.singleton_append] at hplan
  change s.close.repairFor _ _ = _ at hplan
  have hseam : s.close.seam s.keysBefore.length = .ok s := by
    rw [seam, Seam.seam?_close hlen]
    rfl
  by_cases heq : s.left.keys.length = capacity / 2
  · have hmerge : s.close.repairFor (capacity / 2) (s.keysBefore.length + 1) =
        .ok .mergeLeft := by
      simp [hplan, heq]
    refine ⟨s.merge, ledger.merge, ?_, .merge hs (filled_joined hs (by omega))⟩
    simp [repair, hmerge, hseam]
  · have hmore : capacity / 2 < s.left.keys.length := by
      have := hl.2.1
      omega
    have hrotate : s.close.repairFor (capacity / 2) (s.keysBefore.length + 1) =
        .ok .rotateRight := by
      simp [hplan, heq, hother heq, hmore]
    obtain ⟨t, ht, hrot, htl, htr⟩ := hs.rotateRight (List.ne_nil_of_length_pos (by omega))
    refine ⟨t.close, ledger.rotation (h != 0), ?_, .rotate hs hrot ⟨hrot.left, ?_, ?_⟩
      ⟨hrot.right, ?_, ?_⟩⟩
    · simp [repair, hrotate, hseam, ht, isLeaf, hs.left.isEmpty_eq, bne]
    · omega
    · have := hl.2.2
      omega
    · omega
    · omega

/-- A child that is one key short, with a filled neighbour on its right that is merged unless the
left one is, and gives a key only where there is no left one. -/
theorem exists_repaired_right (hs : s.Between capacity h)
    (hr : s.right.Filled capacity h) (hl : s.left.keys.length + 1 = capacity / 2)
    (hother : s.childrenBefore.getLast?.map (·.keys.length) ≠ some (capacity / 2))
    (hnone : s.right.keys.length ≠ capacity / 2 → s.childrenBefore = []) :
    ∃ m l, s.close.repair (capacity / 2) s.keysBefore.length ledger = .ok (m, l) ∧
      Repaired capacity h ledger s.close m l := by
  have hlen := hs.opened.left_length
  have hshort : s.left.keys.length < capacity / 2 := by omega
  have hplan := repairFor_of_lt hlen hshort s.id (s.keysBefore ++ s.separator :: s.keysAfter)
    (s.right :: s.childrenAfter)
  change s.close.repairFor _ _ = _ at hplan
  have hseam : s.close.seam s.keysBefore.length = .ok s := by
    rw [seam, Seam.seam?_close hlen]
    rfl
  by_cases heq : s.right.keys.length = capacity / 2
  · have hmerge : s.close.repairFor (capacity / 2) s.keysBefore.length = .ok .mergeRight := by
      simp [hplan, heq, hother]
    refine ⟨s.merge, ledger.merge, ?_, .merge hs (filled_joined hs (by omega))⟩
    simp [repair, hmerge, hseam]
  · have hmore : capacity / 2 < s.right.keys.length := by
      have := hr.2.1
      omega
    have hrotate : s.close.repairFor (capacity / 2) s.keysBefore.length = .ok .rotateLeft := by
      simp [hplan, heq, hnone heq, hmore]
    obtain ⟨t, ht, hrot, htl, htr⟩ := hs.rotateLeft (List.ne_nil_of_length_pos (by omega))
    refine ⟨t.close, ledger.rotation (h != 0), ?_, .rotate hs hrot ⟨hrot.left, ?_, ?_⟩
      ⟨hrot.right, ?_, ?_⟩⟩
    · simp [repair, hrotate, hseam, ht, isLeaf, hs.right.isEmpty_eq, bne]
    · omega
    · omega
    · omega
    · have := hr.2.2
      omega

end Choice

/-! ## The rule for callers -/

section Rule

variable {before after : List Key} {left right : List (Node Key)} {c d : Node Key}

/-- The seam between a child and its left neighbour. -/
theorem Opened.seam_left (ho : Opened capacity h before after (left ++ [d]) right)
    (hc : c.Balanced capacity h) (id : Nat) :
    ∃ s : Seam, s.Between capacity h ∧ s.left = d ∧ s.right = c ∧ s.childrenAfter = right ∧
      s.keysBefore.length + 1 = before.length ∧
      s.close = ⟨id, before ++ after, left ++ [d] ++ c :: right⟩ := by
  have hlen := ho.left_length
  simp only [List.length_append, List.length_singleton] at hlen
  have hne : before ≠ [] := List.ne_nil_of_length_eq_add_one hlen.symm
  obtain ⟨keys, separator, rfl⟩ : ∃ keys separator, before = keys ++ [separator] :=
    ⟨_, _, (List.dropLast_concat_getLast hne).symm⟩
  have hd : d.Filled capacity h := ho.siblings d (by simp)
  refine ⟨⟨id, keys, separator, after, left, d, c, right⟩, ⟨⟨by simpa using hlen,
    ho.right_length, ?_⟩, hd.1, hc⟩, rfl, rfl, rfl, by simp, by simp [Seam.close]⟩
  rw [List.forall_mem_append]
  exact ⟨(List.forall_mem_append.1 ho.filled_left).1, ho.filled_right⟩

/-- The seam between a child and its right neighbour. -/
theorem Opened.seam_right (ho : Opened capacity h before after left (d :: right))
    (hc : c.Balanced capacity h) (id : Nat) :
    ∃ s : Seam, s.Between capacity h ∧ s.left = c ∧ s.right = d ∧ s.childrenBefore = left ∧
      s.keysBefore.length = before.length ∧
      s.close = ⟨id, before ++ after, left ++ c :: d :: right⟩ := by
  obtain ⟨separator, keys, rfl⟩ : ∃ separator keys, after = separator :: keys :=
    List.exists_cons_of_length_eq_add_one ho.right_length.symm
  have hd : d.Filled capacity h := ho.siblings d (by simp)
  refine ⟨⟨id, before, separator, keys, left, c, d, right⟩, ⟨⟨ho.left_length,
    Nat.succ.inj ho.right_length, ?_⟩, hc, hd.1⟩, rfl, rfl, rfl, rfl, rfl⟩
  rw [List.forall_mem_append]
  exact ⟨ho.filled_left, (List.forall_mem_cons.1 ho.filled_right).2⟩

/-- A child with enough keys is left alone. -/
theorem repair_of_le {minimum i : Nat} (hi : left.length = i) (hc : minimum ≤ c.keys.length)
    (id : Nat) (keys : List Key) (right : List (Node Key)) (ledger : Ledger) :
    repair ⟨id, keys, left ++ c :: right⟩ minimum i ledger =
      .ok (⟨id, keys, left ++ c :: right⟩, ledger) := by
  have hchild : (left ++ c :: right)[i]? = some c := by simp [← hi]
  simp [repair, repairFor, hchild, hc]

/-- A child that is at most one key short can always be repaired, provided that its parent holds a
key and hence has a second child. -/
theorem exists_repaired (ho : Opened capacity h before after left right)
    (hc : c.Balanced capacity h) (hlow : capacity / 2 ≤ c.keys.length + 1)
    (hhigh : c.keys.length ≤ capacity) (hkeys : before ++ after ≠ []) (id : Nat)
    (ledger : Ledger) :
    ∃ m l, repair ⟨id, before ++ after, left ++ c :: right⟩ (capacity / 2) before.length ledger =
        .ok (m, l) ∧
      Repaired capacity h ledger ⟨id, before ++ after, left ++ c :: right⟩ m l := by
  by_cases hfilled : capacity / 2 ≤ c.keys.length
  · exact ⟨_, _, repair_of_le ho.left_length hfilled _ _ _ _,
      .keep (ho.balanced ⟨hc, hfilled, hhigh⟩ id)⟩
  have hshort : c.keys.length + 1 = capacity / 2 := by omega
  -- The left neighbour is taken when it can be merged, and otherwise unless the right one can.
  by_cases hleft : left = []
  · subst hleft
    obtain rfl : before = [] := List.length_eq_zero_iff.1 ho.left_length.symm
    obtain ⟨d, right, rfl⟩ : ∃ d rest, right = d :: rest := by
      refine List.exists_cons_of_length_pos ?_
      rw [ho.right_length]
      exact List.length_pos_iff.2 hkeys
    obtain ⟨s, hs, hsl, hsr, hbefore, hindex, hclose⟩ := ho.seam_right hc id
    rw [← hclose, ← hindex]
    have hd : d.Filled capacity h := ho.siblings d (by simp)
    refine exists_repaired_right hs (by rwa [hsr]) (by rwa [hsl]) ?_ fun _ => hbefore
    simp [hbefore]
  · obtain ⟨rest, d, rfl⟩ : ∃ rest d, left = rest ++ [d] :=
      ⟨_, _, (List.dropLast_concat_getLast hleft).symm⟩
    have hd : d.Filled capacity h := ho.siblings d (by simp)
    by_cases hmerge : d.keys.length ≠ capacity / 2 ∧
        right.head?.map (·.keys.length) = some (capacity / 2)
    · obtain ⟨hdlen, hright⟩ := hmerge
      obtain ⟨e, he, helen⟩ := Option.map_eq_some_iff.1 hright
      obtain ⟨right, rfl⟩ := List.head?_eq_some_iff.1 he
      obtain ⟨s, hs, hsl, hsr, hbefore, hindex, hclose⟩ := ho.seam_right hc id
      rw [← hclose, ← hindex]
      have he : e.Filled capacity h := ho.siblings e (by simp)
      refine exists_repaired_right hs (by rwa [hsr]) (by rwa [hsl]) ?_ ?_
      · simpa [hbefore] using hdlen
      · intro hne
        exact absurd helen (by rwa [hsr] at hne)
    · obtain ⟨s, hs, hsl, hsr, hafter, hindex, hclose⟩ := ho.seam_left hc id
      rw [← hclose, ← hindex]
      refine exists_repaired_left hs (by rwa [hsl]) (by rwa [hsr]) ?_
      rw [hsl, hafter]
      intro hne hright
      exact hmerge ⟨hne, hright⟩

end Rule

end Node

end TracedTree
