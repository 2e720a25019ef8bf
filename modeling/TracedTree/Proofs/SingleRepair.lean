import TracedTree.Proofs.GuardedRepair

/-!
# One repair

What a single repair does, seen from the parent alone. Nothing is asked of the nodes below the
children but that all leaves stand at one depth; in particular they may hold any number of keys, in
any order. A merge and a rotation leave two neighbours with the keys and the children that they had
before, in the same order, and divide them in another way or not at all. So the keys from left to
right and the depths of the leaves stay as they are.

## Main definitions

* `Node.LacksKey capacity i n`: child `i` lacks one key, and the other children keep the limits.
* `Node.Mended capacity n m`: the second node holds the keys of the first, and all its children keep
  the limits.
* `Seam.Fused s m`: the second node is the one of the seam, its two children made one.
* `Node.Change capacity i ledger n m l`: the ways in which a repair changes a node.

## Main statements

* `Node.LacksKey.exists_repair`: a child that lacks one key is repaired.
* `Node.LacksKey.repair_exact`: the same, and in the middle of any tree.
-/

namespace TracedTree

namespace Node

variable {α : Type} {a b n : Node α}

/-! ## Neighbours -/

theorem Peers.fits (h : a.Peers b) : a.Fits ∧ b.Fits := by
  rcases h with ⟨ha, hb⟩ | ⟨ha, hb⟩
  · exact ⟨.inl ha, .inl hb⟩
  · exact ⟨.inr ha, .inr hb⟩

theorem mem_leafDepths_iff {d : Nat} (hne : n.children ≠ []) :
    d ∈ n.leafDepths ↔ ∃ c ∈ n.children, ∃ e ∈ c.leafDepths, e + 1 = d := by
  obtain ⟨id, keys, children⟩ := n
  rw [leafDepths_mk, List.isEmpty_eq_false_iff.2 hne]
  simp only [Bool.false_eq_true, if_false, List.mem_map, List.mem_flatMap]
  constructor
  · rintro ⟨e, ⟨c, hc, he⟩, rfl⟩
    exact ⟨c, hc, e, he, rfl⟩
  · rintro ⟨c, hc, e, he, rfl⟩
    exact ⟨e, ⟨c, hc, he⟩, rfl⟩

/-- A node with a leaf at its own depth is that leaf. -/
theorem zero_mem_leafDepths_iff : 0 ∈ n.leafDepths ↔ n.children = [] := by
  by_cases hnil : n.children = []
  · obtain ⟨id, keys, children⟩ := n
    obtain rfl : children = [] := hnil
    simp [leafDepths_mk]
  · simp [mem_leafDepths_iff hnil, hnil]

/-- Nodes over equally deep leaves are peers. -/
theorem peers_of_level (ha : a.Fits) (hb : b.Fits)
    (hlevel : ∀ d ∈ a.leafDepths, ∀ e ∈ b.leafDepths, d = e) : a.Peers b := by
  have hleaf : a.children = [] ↔ b.children = [] := by
    obtain ⟨d, hd⟩ := List.exists_mem_of_ne_nil _ (leafDepths_ne_nil a)
    obtain ⟨e, he⟩ := List.exists_mem_of_ne_nil _ (leafDepths_ne_nil b)
    rw [← zero_mem_leafDepths_iff, ← zero_mem_leafDepths_iff]
    constructor
    · intro h
      exact (hlevel 0 h e he).symm ▸ he
    · intro h
      exact hlevel d hd 0 h ▸ hd
  by_cases h : a.children = []
  · exact .inl ⟨h, hleaf.1 h⟩
  · exact .inr ⟨ha.resolve_left h, hb.resolve_left (mt hleaf.2 h)⟩

/-- The leaves below two peers are those below one node with their children. -/
theorem Peers.mem_leafDepths_join (h : a.Peers b) (id : Nat) (keys : List α) {d : Nat} :
    d ∈ leafDepths ⟨id, keys, a.children ++ b.children⟩ ↔
      d ∈ a.leafDepths ∨ d ∈ b.leafDepths := by
  rcases h with ⟨ha, hb⟩ | ⟨ha, hb⟩
  · obtain ⟨i, ks, cs⟩ := a
    obtain ⟨j, ls, ds⟩ := b
    obtain rfl : cs = [] := ha
    obtain rfl : ds = [] := hb
    simp [leafDepths_mk]
  · have hna := List.ne_nil_of_length_eq_add_one ha
    have hnb := List.ne_nil_of_length_eq_add_one hb
    rw [mem_leafDepths_iff hna, mem_leafDepths_iff hnb, mem_leafDepths_iff (by simp [hna])]
    simp only [List.mem_append, or_and_right, exists_or]

end Node

namespace Node

/-- The second node holds the keys of the first from left to right, its children are leaves or fit
their own children as those of the first, its leaves stand as deep, and all its children keep the
limits. -/
structure Mended (capacity : Nat) (n m : Node Key) : Prop where
  inorder : m.inorder = n.inorder
  length : m.children.length = m.keys.length + 1
  peers : ∀ b ∈ n.children, ∀ c ∈ m.children, b.Peers c
  limits : ∀ c ∈ m.children, capacity / 2 ≤ c.keys.length ∧ c.keys.length ≤ capacity
  level : ∀ d ∈ m.leafDepths, ∀ e ∈ n.leafDepths, d = e

end Node

namespace Seam

variable {capacity : Nat} {s t : Seam} {m : Node Key}

/-! ## What changes at a seam -/

/-- The seam opens the node between child `i` and a neighbour of it. -/
structure Opens (s : Seam) (n : Node Key) (i : Nat) : Prop where
  close : s.close = n
  length : s.childrenBefore.length = s.keysBefore.length
  child : i = s.childrenBefore.length ∨ i = s.childrenBefore.length + 1

/-- The two children became one, with the identity of the left one. It has their keys with the
separator between them, and their children. -/
structure Fused (s : Seam) (m : Node Key) : Prop where
  id : m.id = s.id
  keys : m.keys = s.keysBefore ++ s.keysAfter
  children : ∃ c, m.children = s.childrenBefore ++ c :: s.childrenAfter ∧ c.id = s.left.id ∧
    c.keys = s.left.keys ++ s.separator :: s.right.keys ∧
    c.children = s.left.children ++ s.right.children

theorem fused_merge (s : Seam) : s.Fused s.merge := ⟨rfl, rfl, s.joined, rfl, rfl, rfl, rfl⟩

/-- Peers that were shifted stand over the same leaves as before. -/
theorem Shifted.mem_leafDepths (h : s.Shifted t) (hs : s.left.Peers s.right)
    (ht : t.left.Peers t.right) {d : Nat} :
    d ∈ t.left.leafDepths ∨ d ∈ t.right.leafDepths ↔
      d ∈ s.left.leafDepths ∨ d ∈ s.right.leafDepths := by
  rw [← ht.mem_leafDepths_join s.id [], ← hs.mem_leafDepths_join s.id [], h.children]

/-! ## Closing the seam -/

/-- All is as it should be at a seam but the numbers of keys in its two children. -/
structure Aligned (capacity : Nat) (s : Seam) : Prop where
  before : s.childrenBefore.length = s.keysBefore.length
  after : s.childrenAfter.length = s.keysAfter.length
  fits : ∀ c ∈ s.close.children, c.Fits
  level : ∀ d ∈ s.close.leafDepths, ∀ e ∈ s.close.leafDepths, d = e
  limits : ∀ c ∈ s.childrenBefore ++ s.childrenAfter,
    capacity / 2 ≤ c.keys.length ∧ c.keys.length ≤ capacity

theorem Aligned.peers (hs : s.Aligned capacity) : s.left.Peers s.right := by
  have hleft : s.left ∈ s.close.children := by simp [close]
  have hright : s.right ∈ s.close.children := by simp [close]
  refine Node.peers_of_level (hs.fits _ hleft) (hs.fits _ hright) fun d hd e he => ?_
  exact Nat.succ.inj
    (hs.level _ (Node.succ_mem_leafDepths hleft hd) _ (Node.succ_mem_leafDepths hright he))

/-- What takes the place of the two children, and keeps their keys in order, mends the node. -/
theorem Aligned.mended (hs : s.Aligned capacity) {middle : List (Node Key)}
    (hchildren : m.children = s.childrenBefore ++ middle ++ s.childrenAfter)
    (hinorder : m.inorder = s.close.inorder) (hlength : m.children.length = m.keys.length + 1)
    (hfits : ∀ c ∈ middle, c.Fits)
    (hlimits : ∀ c ∈ middle, capacity / 2 ≤ c.keys.length ∧ c.keys.length ≤ capacity)
    (hdepths : ∀ c ∈ middle, ∀ d ∈ c.leafDepths,
      d ∈ s.left.leafDepths ∨ d ∈ s.right.leafDepths) :
    s.close.Mended capacity m := by
  have hmem : ∀ c ∈ m.children, c ∈ middle ∨ c ∈ s.childrenBefore ++ s.childrenAfter := by
    intro c hc
    rw [hchildren] at hc
    simp only [List.mem_append] at hc ⊢
    tauto
  have hkept : ∀ c ∈ s.childrenBefore ++ s.childrenAfter, c ∈ s.close.children := by
    intro c hc
    simp only [close, List.mem_append, List.mem_cons] at hc ⊢
    tauto
  have hlevel : ∀ d ∈ m.leafDepths, d ∈ s.close.leafDepths := by
    intro d hd
    have hne : m.children ≠ [] := List.ne_nil_of_length_eq_add_one hlength
    obtain ⟨c, hc, e, he, rfl⟩ := (Node.mem_leafDepths_iff hne).1 hd
    have hbelow : ∃ b ∈ s.close.children, e ∈ b.leafDepths := by
      rcases hmem c hc with hc | hc
      · rcases hdepths c hc e he with he | he
        · exact ⟨s.left, by simp [close], he⟩
        · exact ⟨s.right, by simp [close], he⟩
      · exact ⟨c, hkept c hc, he⟩
    obtain ⟨b, hb, he⟩ := hbelow
    exact Node.succ_mem_leafDepths hb he
  refine ⟨hinorder, hlength, fun b hb c hc => ?_,
    fun c hc => (hmem c hc).elim (hlimits c) (hs.limits c), fun d hd => hs.level d (hlevel d hd)⟩
  have hfit : c.Fits := (hmem c hc).elim (hfits c) fun hc => hs.fits c (hkept c hc)
  refine Node.peers_of_level (hs.fits b hb) hfit fun d hd e he => ?_
  exact Nat.succ.inj (hs.level _ (Node.succ_mem_leafDepths hb hd) _
    (hlevel _ (Node.succ_mem_leafDepths hc he)))

/-- A merge mends the node if one child holds the least number of keys and the other lacks one. -/
theorem Aligned.mended_merge (hs : s.Aligned capacity)
    (hlength : s.left.keys.length + s.right.keys.length + 1 = 2 * (capacity / 2)) :
    s.close.Mended capacity s.merge := by
  have hpeers := hs.peers
  have hinorder : s.merge.inorder = s.close.inorder := by
    rw [inorder_merge hs.before, inorder_close hs.before, joined, hpeers.inorder_join]
  have hcount : s.merge.children.length = s.merge.keys.length + 1 := by
    simp only [merge, List.length_append, List.length_cons, hs.before, hs.after]
    omega
  have hchildren : s.merge.children = s.childrenBefore ++ [s.joined] ++ s.childrenAfter := by
    simp [merge]
  refine hs.mended hchildren hinorder hcount ?_ ?_ ?_
  · rw [List.forall_mem_singleton]
    rcases hpeers with ⟨hl, hr⟩ | ⟨hl, hr⟩
    · exact .inl (by simp [joined, hl, hr])
    · refine .inr ?_
      simp only [joined, List.length_append, List.length_cons, hl, hr]
      omega
  · rw [List.forall_mem_singleton]
    simp only [joined, List.length_append, List.length_cons]
    omega
  · rw [List.forall_mem_singleton]
    exact fun d hd => (hpeers.mem_leafDepths_join _ _).1 hd

/-- A rotation mends the node if both children keep the limits after it. -/
theorem Aligned.mended_shifted (hs : s.Aligned capacity) (h : s.Shifted t)
    (ht : t.left.Peers t.right)
    (hleft : capacity / 2 ≤ t.left.keys.length ∧ t.left.keys.length ≤ capacity)
    (hright : capacity / 2 ≤ t.right.keys.length ∧ t.right.keys.length ≤ capacity) :
    s.close.Mended capacity t.close := by
  have hinorder : t.close.inorder = s.close.inorder := by
    have hbefore : t.childrenBefore.length = t.keysBefore.length := by
      rw [h.around]
      exact hs.before
    rw [inorder_close hbefore, h.inorder_eq hs.peers ht, inorder_close hs.before, h.around]
  have hcount : t.close.children.length = t.close.keys.length + 1 := by
    rw [h.around]
    simp only [close, List.length_append, List.length_cons, hs.before, hs.after]
    omega
  have hchildren : t.close.children =
      s.childrenBefore ++ [t.left, t.right] ++ s.childrenAfter := by
    rw [h.around]
    simp [close]
  refine hs.mended hchildren hinorder hcount ?_ ?_ ?_
  · simpa using ht.fits
  · simpa using ⟨hleft, hright⟩
  · have hdepths : ∀ d, d ∈ t.left.leafDepths ∨ d ∈ t.right.leafDepths →
        d ∈ s.left.leafDepths ∨ d ∈ s.right.leafDepths := fun d =>
      (h.mem_leafDepths hs.peers ht).1
    simp only [List.forall_mem_cons]
    exact ⟨fun d hd => hdepths d (.inl hd), fun d hd => hdepths d (.inr hd),
      List.forall_mem_nil _⟩

end Seam

namespace Node

variable {capacity i : Nat} {n : Node Key}

/-! ## A child that lacks a key -/

/-- Child `i` lacks one key. All other children keep the limits, every child fits its own children,
and all leaves stand at one depth. -/
structure LacksKey (capacity i : Nat) (n : Node Key) : Prop where
  keys_ne_nil : n.keys ≠ []
  length : n.children.length = n.keys.length + 1
  fits : ∀ c ∈ n.children, c.Fits
  level : ∀ d ∈ n.leafDepths, ∀ e ∈ n.leafDepths, d = e
  lacking : ∃ c, n.children[i]? = some c ∧ c.keys.length + 1 = capacity / 2
  limits : ∀ j c, n.children[j]? = some c → j ≠ i →
    capacity / 2 ≤ c.keys.length ∧ c.keys.length ≤ capacity

/-- The children beside a child. -/
def neighbours (n : Node Key) (i : Nat) : List (Node Key) :=
  (n.leftSibling? i).toList ++ n.children[i + 1]?.toList

/-- The node opens at each key beside the child. -/
theorem LacksKey.exists_aligned (hn : n.LacksKey capacity i) {j : Nat} (hj : j < n.keys.length)
    (hi : i = j ∨ i = j + 1) :
    ∃ s, n.seam j = .ok s ∧ s.Opens n i ∧ s.Aligned capacity ∧
      n.children[j]? = some s.left ∧ n.children[j + 1]? = some s.right := by
  obtain ⟨id, keys, children⟩ := n
  have hlength : children.length = keys.length + 1 := hn.length
  replace hj : j < keys.length := hj
  have hleft : j < children.length := by omega
  have hright : j + 1 < children.length := by omega
  let s : Seam := ⟨id, keys.take j, keys[j], keys.drop (j + 1), children.take j, children[j],
    children[j + 1], children.drop (j + 2)⟩
  have hclose : s.close = ⟨id, keys, children⟩ := by
    simp only [s, Seam.close, ← List.drop_eq_getElem_cons hj, ← List.drop_eq_getElem_cons hright,
      ← List.drop_eq_getElem_cons hleft, List.take_append_drop]
  have hkeys : s.keysBefore.length = j := List.length_take_of_le (Nat.le_of_lt hj)
  have hbefore : s.childrenBefore.length = j := List.length_take_of_le (Nat.le_of_lt hleft)
  have hlen := hbefore.trans hkeys.symm
  have hseam : seam ⟨id, keys, children⟩ j = .ok s := by
    have hopen := Seam.seam?_close hlen
    rw [hclose, hkeys] at hopen
    rw [seam, hopen]
    rfl
  have hother : ∀ c ∈ s.childrenBefore ++ s.childrenAfter,
      ∃ k, children[k]? = some c ∧ k ≠ i := by
    intro c hc
    rcases List.mem_append.1 hc with hc | hc
    · obtain ⟨k, hk⟩ := List.mem_iff_getElem?.1 hc
      have hlt : k < j := hbefore ▸ (List.getElem?_eq_some_iff.1 hk).1
      rw [List.getElem?_take_of_lt hlt] at hk
      exact ⟨k, hk, by omega⟩
    · obtain ⟨k, hk⟩ := List.mem_iff_getElem?.1 hc
      rw [List.getElem?_drop] at hk
      exact ⟨j + 2 + k, hk, by omega⟩
  refine ⟨s, hseam, ⟨hclose, hlen, hbefore.symm ▸ hi⟩, ⟨hlen, ?_, ?_, ?_, ?_⟩,
    List.getElem?_eq_getElem hleft, List.getElem?_eq_getElem hright⟩
  · simp only [s, List.length_drop]
    omega
  · rw [hclose]
    exact hn.fits
  · rw [hclose]
    exact hn.level
  · intro c hc
    obtain ⟨k, hk, hne⟩ := hother c hc
    exact hn.limits k c hk hne

/-! ## The repair -/

/-- What a repair of child `i` changes in a node and its ledger. -/
inductive Change (capacity i : Nat) (ledger : Ledger) (n m : Node Key) : Ledger → Prop where
  /-- A neighbour that held no more than it must was merged with the child, which has taken one key
  from the node. -/
  | merged {s : Seam} (opens : s.Opens n i)
      (held : ∃ d ∈ n.neighbours i, d.keys.length = capacity / 2) (fused : s.Fused m)
      (length : m.keys.length + 1 = n.keys.length) : Change capacity i ledger n m ledger.merge
  /-- All neighbours held more, and one of them has given a key in exchange for one of the node. -/
  | rotated {s t : Seam} (opens : s.Opens n i)
      (held : ∀ d ∈ n.neighbours i, capacity / 2 < d.keys.length) (shifted : s.Shifted t)
      (close : t.close = m) (length : m.keys.length = n.keys.length) :
      Change capacity i ledger n m (ledger.rotation !s.left.isLeaf)

variable {s t : Seam} {ledger : Ledger} {d : Node Key}

theorem mem_neighbours :
    d ∈ n.neighbours i ↔ n.leftSibling? i = some d ∨ n.children[i + 1]? = some d := by
  simp [neighbours]

theorem LacksKey.limits_neighbour (hn : n.LacksKey capacity i) (hd : d ∈ n.neighbours i) :
    capacity / 2 ≤ d.keys.length ∧ d.keys.length ≤ capacity := by
  rcases mem_neighbours.1 hd with hd | hd
  · cases i with
    | zero => cases hd
    | succ j => exact hn.limits j d hd (by omega)
  · exact hn.limits (i + 1) d hd (by omega)

theorem change_merge (hopens : s.Opens n i) (hs : s.Aligned capacity)
    (hlength : s.left.keys.length + s.right.keys.length + 1 = 2 * (capacity / 2))
    (held : ∃ d ∈ n.neighbours i, d.keys.length = capacity / 2) :
    n.Mended capacity s.merge ∧ Change capacity i ledger n s.merge ledger.merge := by
  have hcount : s.merge.keys.length + 1 = n.keys.length := by
    rw [← hopens.close]
    simp only [Seam.merge, Seam.close, List.length_append, List.length_cons]
    omega
  refine ⟨?_, .merged hopens held s.fused_merge hcount⟩
  rw [← hopens.close]
  exact hs.mended_merge hlength

theorem change_rotate (hopens : s.Opens n i) (hs : s.Aligned capacity) (h : s.Shifted t)
    (ht : t.left.Peers t.right)
    (hleft : capacity / 2 ≤ t.left.keys.length ∧ t.left.keys.length ≤ capacity)
    (hright : capacity / 2 ≤ t.right.keys.length ∧ t.right.keys.length ≤ capacity)
    (held : ∀ d ∈ n.neighbours i, capacity / 2 < d.keys.length) :
    n.Mended capacity t.close ∧
      Change capacity i ledger n t.close (ledger.rotation !s.left.isLeaf) := by
  have hcount : t.close.keys.length = n.keys.length := by
    rw [← hopens.close, h.around]
    simp only [Seam.close, List.length_append, List.length_cons]
  refine ⟨?_, .rotated hopens held h rfl hcount⟩
  rw [← hopens.close]
  exact hs.mended_shifted h ht hleft hright

/-- A child that lacks one key is repaired: merged with a neighbour that holds as few keys as it
may, the left one first, and otherwise given a key by a neighbour, the left one first. -/
theorem LacksKey.exists_repair (hn : n.LacksKey capacity i) (ledger : Ledger) :
    ∃ m l, n.repair (capacity / 2) i ledger = .ok (m, l) ∧ n.Mended capacity m ∧
      Change capacity i ledger n m l := by
  obtain ⟨c, hc, hshort⟩ := hn.lacking
  have hsmall : ¬ capacity / 2 ≤ c.keys.length := by omega
  have hi : i < n.keys.length + 1 := hn.length ▸ (List.getElem?_eq_some_iff.1 hc).1
  by_cases hleft : (n.leftSibling? i).map (·.keys.length) = some (capacity / 2)
  · obtain ⟨d, hd, hdlen⟩ := Option.map_eq_some_iff.1 hleft
    cases i with
    | zero => cases hd
    | succ j =>
        obtain ⟨s, hseam, hopens, hs, hsl, hsr⟩ :=
          hn.exists_aligned (Nat.lt_of_succ_lt_succ hi) (.inr rfl)
        obtain rfl : s.left = d := Option.some.inj (hsl.symm.trans hd)
        obtain rfl : s.right = c := Option.some.inj (hsr.symm.trans hc)
        have hplan : n.repairFor (capacity / 2) (j + 1) = .ok .mergeLeft := by
          simp [repairFor, hc, hsmall, hleft]
        refine ⟨s.merge, ledger.merge, by simp [repair, hplan, hseam], ?_⟩
        exact change_merge hopens hs (by omega) ⟨_, mem_neighbours.2 (.inl hd), hdlen⟩
  by_cases hright : n.children[i + 1]?.map (·.keys.length) = some (capacity / 2)
  · obtain ⟨d, hd, hdlen⟩ := Option.map_eq_some_iff.1 hright
    have hlt : i + 1 < n.keys.length + 1 := hn.length ▸ (List.getElem?_eq_some_iff.1 hd).1
    obtain ⟨s, hseam, hopens, hs, hsl, hsr⟩ :=
      hn.exists_aligned (Nat.lt_of_succ_lt_succ hlt) (.inl rfl)
    obtain rfl : s.left = c := Option.some.inj (hsl.symm.trans hc)
    obtain rfl : s.right = d := Option.some.inj (hsr.symm.trans hd)
    have hplan : n.repairFor (capacity / 2) i = .ok .mergeRight := by
      simp [repairFor, hc, hsmall, hleft, hright]
    refine ⟨s.merge, ledger.merge, by simp [repair, hplan, hseam], ?_⟩
    exact change_merge hopens hs (by omega) ⟨_, mem_neighbours.2 (.inr hd), hdlen⟩
  have held : ∀ d ∈ n.neighbours i, capacity / 2 < d.keys.length := by
    intro d hd
    refine Nat.lt_of_le_of_ne (hn.limits_neighbour hd).1 fun heq => ?_
    rcases mem_neighbours.1 hd with hd | hd
    · exact hleft (by rw [hd, Option.map_some, heq])
    · exact hright (by rw [hd, Option.map_some, heq])
  cases i with
  | succ j =>
      obtain ⟨s, hseam, hopens, hs, hsl, hsr⟩ :=
        hn.exists_aligned (Nat.lt_of_succ_lt_succ hi) (.inr rfl)
      obtain rfl : s.right = c := Option.some.inj (hsr.symm.trans hc)
      have hd : s.left ∈ n.neighbours (j + 1) := mem_neighbours.2 (.inl hsl)
      have hmore := held s.left hd
      have hplan : n.repairFor (capacity / 2) (j + 1) = .ok .rotateRight := by
        have hsibling : n.leftSibling? (j + 1) = some s.left := hsl
        simp [repairFor, hc, hsmall, hright, hsibling, hmore, Nat.ne_of_gt hmore]
      obtain ⟨t, ht, hshift, hpeers, htl, htr⟩ :=
        Seam.exists_shifted_right hs.peers (List.ne_nil_of_length_pos (by omega))
      refine ⟨t.close, ledger.rotation !s.left.isLeaf, by simp [repair, hplan, hseam, ht], ?_⟩
      have hlimits := hn.limits_neighbour hd
      exact change_rotate hopens hs hshift hpeers (by omega) (by omega) held
  | zero =>
      obtain ⟨s, hseam, hopens, hs, hsl, hsr⟩ :=
        hn.exists_aligned (List.length_pos_iff.2 hn.keys_ne_nil) (.inl rfl)
      obtain rfl : s.left = c := Option.some.inj (hsl.symm.trans hc)
      have hd : s.right ∈ n.neighbours 0 := mem_neighbours.2 (.inr hsr)
      have hmore := held s.right hd
      have hplan : n.repairFor (capacity / 2) 0 = .ok .rotateLeft := by
        have hsibling : n.leftSibling? 0 = none := rfl
        simp [repairFor, hc, hsmall, hsibling, hsr, hmore, Nat.ne_of_gt hmore]
      obtain ⟨t, ht, hshift, hpeers, htl, htr⟩ :=
        Seam.exists_shifted_left hs.peers (List.ne_nil_of_length_pos (by omega))
      refine ⟨t.close, ledger.rotation !s.left.isLeaf, ?_, ?_⟩
      · simp [repair, hplan, hseam, ht, hs.peers.isLeaf_eq]
      have hlimits := hn.limits_neighbour hd
      exact change_rotate hopens hs hshift hpeers (by omega) (by omega) held

/-- **One repair is exact.** A child that lacks one key is repaired, whatever the nodes further down
hold. Afterwards every child keeps the limits and fits its own children, the leaves stand as deep as
before, the node fits its children, and the keys from left to right are the same. A merge takes one
key from the node and a rotation none; but for the child, one neighbour and the key between them,
nothing has changed in the node. Made in place, in the middle of any tree, the repair meets no fault
and leaves all around the node as it is. -/
theorem LacksKey.repair_exact (hn : n.LacksKey capacity i) (ledger : Ledger) :
    ∃ m l, n.repair (capacity / 2) i ledger = .ok (m, l) ∧ n.Mended capacity m ∧
      Change capacity i ledger n m l ∧
      ∀ (t : Tree) (ctx : List (Layer Key)),
        t.maxKeys = capacity → t.root = plug ctx n → t.ledger = ledger →
          ∃ frames, (Guarded.rebalance (pathOf ctx) i).run t = .ok ((), { t with
            root := plug ctx m, ledger := l, recording := t.recording.map (· ++ frames) }) := by
  obtain ⟨m, l, hrepair, hmended, hchange⟩ := hn.exists_repair ledger
  refine ⟨m, l, hrepair, hmended, hchange, ?_⟩
  rintro t ctx rfl hroot rfl
  obtain ⟨c, hc, hshort⟩ := hn.lacking
  -- Whatever the identities are, only the frames depend on them.
  have hleads : Guarded.Leads False t.maxKeys ctx (Guarded.rebalance (pathOf ctx) i) n t.ledger
      (pure ()) m l (n.repairFrames (t.maxKeys / 2) i t.ledger) :=
    Guarded.leads_rebalance hn.fits False.elim hc (Nat.le_of_eq hshort.symm) hrepair
  have hstart : t.focus ctx n t.ledger [] = t := by simp [Tree.focus, ← hroot]
  obtain ⟨shown, -, hrun⟩ := hleads t rfl []
  rw [hstart] at hrun
  exact ⟨shown, hrun⟩

/-- A child that has lost its only key and holds one child still, in the middle of a tree. The left
neighbour gives a key and its last child. -/
theorem repair_exact_single_child :
    let n : Node Key := ⟨6, [.text "d"],
      [⟨3, [.text "b", .text "c"],
        [⟨1, [.text "a"], []⟩, ⟨2, [.text "b"], []⟩, ⟨9, [.text "c", .text "c"], []⟩]⟩,
      ⟨5, [], [⟨4, [.text "e"], []⟩]⟩]⟩
    let m : Node Key := ⟨6, [.text "c"],
      [⟨3, [.text "b"], [⟨1, [.text "a"], []⟩, ⟨2, [.text "b"], []⟩]⟩,
      ⟨5, [.text "d"], [⟨9, [.text "c", .text "c"], []⟩, ⟨4, [.text "e"], []⟩]⟩]⟩
    let other : Node Key := ⟨16, [.text "j"],
      [⟨7, [.text "h"], [⟨10, [.text "g"], []⟩, ⟨11, [.text "i"], []⟩]⟩,
      ⟨12, [.text "l"], [⟨13, [.text "k"], []⟩, ⟨14, [.text "m"], []⟩]⟩]⟩
    let t : Tree := ⟨2, .text, ⟨15, [.text "f"], [n, other]⟩, ⟨16, {}⟩, some [], by decide⟩
    let l : Ledger := ⟨16, ⟨0, 0, 0, 1⟩⟩
    n.LacksKey 2 1 ∧ n.repair 1 1 t.ledger = .ok (m, l) ∧ n.Mended 2 m ∧
      Change 2 1 t.ledger n m l ∧
      ∃ frames, (Guarded.rebalance [0] 1).run t = .ok ((), { t with
        root := ⟨15, [.text "f"], [m, other]⟩, ledger := l, recording := some frames }) := by
  intro n m other t l
  have hn : n.LacksKey 2 1 := by
    refine ⟨by simp [n], rfl, by simp [n, Fits], by decide, ⟨_, rfl, rfl⟩, fun j c hc hj => ?_⟩
    obtain _ | _ | j := j
    · obtain rfl := Option.some.inj hc
      decide
    · exact absurd rfl hj
    · simp [n] at hc
  have hrepair : n.repair 1 1 t.ledger = .ok (m, l) := by decide
  obtain ⟨m', l', hrepair', hmended, hchange, hrun⟩ := hn.repair_exact t.ledger
  obtain ⟨rfl, rfl⟩ := Prod.mk.inj (Except.ok.inj (hrepair'.symm.trans hrepair))
  obtain ⟨frames, hframes⟩ := hrun t [⟨15, [.text "f"], [], [other]⟩] rfl rfl rfl
  exact ⟨hn, hrepair, hmended, hchange, frames, hframes⟩

end Node

end TracedTree
