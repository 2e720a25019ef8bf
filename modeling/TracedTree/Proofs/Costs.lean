import Mathlib.Data.List.DropRight
import TracedTree.Proofs.Descent
import TracedTree.Proofs.Identities

/-!
# What one operation costs

An insertion divides the full nodes at the end of the way down, from the leaf up to the first node
that has room, and nothing else is counted. After a removal the repairs go up from a leaf as long
as they are merges that leave the parent a key short. A rotation ends them, since the parent keeps
its number of keys, and so does a child that holds enough keys: `Repairs.step` is the step for
one level.

## Main definitions

* `Node.fullRun capacity k n`: the number of consecutive full nodes at the end of the way down.
* `Repairs h ledger l short`: what the repairs on `h` levels have added to the counters.
* `Tree.Divided k t u`, `Tree.Repaired k t u m s b`: the cost of an insertion and of a removal.
-/

namespace TracedTree

variable {capacity h : Nat} {k : Key} {ledger l : Ledger}

/-! ## Full nodes -/

/-- The number of elements at the end of a longer list that satisfy a test: one more only where all
of them do. -/
theorem length_rtakeWhile_cons {α : Type} (p : α → Bool) (a : α) (as : List α) :
    ((a :: as).rtakeWhile p).length =
      if (as.rtakeWhile p).length = as.length ∧ p a then as.length + 1
      else (as.rtakeWhile p).length := by
  simp only [List.rtakeWhile, List.reverse_cons, List.takeWhile_append, List.length_reverse]
  by_cases hall : (as.reverse.takeWhile p).length = as.length
  · by_cases hp : p a <;> simp [hall, hp]
  · simp [hall]

namespace Node

/-- The number of consecutive full nodes on the way down, counted from the leaf upwards. -/
def fullRun (capacity : Nat) (k : Key) (n : Node Key) : Nat :=
  ((n.descent k).rtakeWhile (·.keys.length == capacity)).length

theorem fullRun_leaf (capacity : Nat) (k : Key) (id : Nat) (keys : List Key) :
    fullRun capacity k ⟨id, keys, []⟩ = if keys.length = capacity then 1 else 0 := by
  rw [fullRun, descent_leaf, length_rtakeWhile_cons]
  simp

/-- A node above lengthens the run only where it reaches it and the node is full. -/
theorem fullRun_opened {before after : List Key} {left right : List (Node Key)} {c : Node Key}
    (hopen : left.length = before.length) (hroute : Route k before after)
    (hc : c.Balanced capacity h) (id : Nat) :
    fullRun capacity k ⟨id, before ++ after, left ++ c :: right⟩ =
      if c.fullRun capacity k = h + 1 ∧ (before ++ after).length = capacity then h + 2
      else c.fullRun capacity k := by
  rw [fullRun, descent_opened hopen hroute, length_rtakeWhile_cons, hc.length_descent]
  simp [fullRun]

end Node

/-! ## Divisions -/

namespace Growth

/-- The number of levels that something adds when it becomes the root. -/
def levels : Growth → Nat
  | whole _ => 0
  | halves _ _ _ => 1

theorem Filled.height_root {held : Nat} {g : Growth × Ledger} (hg : g.1.Filled capacity h held) :
    (Growth.root g).1.height = h + g.1.levels := by
  obtain ⟨g, l⟩ := g
  cases g with
  | whole n => exact hg.1.height_eq
  | halves left median right =>
      have hopen : Node.Opened capacity h ([] : List Key) [] [] [] := ⟨rfl, rfl, by simp⟩
      exact (hopen.balanced_halves hg.1 hg.2 l.freshId median).height_eq

end Growth

namespace Node

/-- A division is counted, and it is what adds a level. -/
theorem splits_settle {n : Node Key} (hlen : n.keys.length ≤ capacity + 1) (ledger : Ledger) :
    (n.settle capacity ledger).1.levels = (if n.keys.length = capacity + 1 then 1 else 0) ∧
    (n.settle capacity ledger).2.counters = { ledger.counters with
      splits := ledger.counters.splits + (n.settle capacity ledger).1.levels } := by
  rcases settle_cases hlen ledger with ⟨hfits, heq⟩ | ⟨ks, m, os, cs, ds, hn, hks, hos, -, heq⟩
  · have hne : n.keys.length ≠ capacity + 1 := by omega
    rw [heq, if_neg hne]
    exact ⟨rfl, rfl⟩
  · have hfull : n.keys.length = capacity + 1 := by
      rw [hn]
      simp only [List.length_append, List.length_cons]
      omega
    rw [heq, if_pos hfull]
    exact ⟨rfl, rfl⟩

/-- **The divisions of an insertion.** As many nodes are divided as there are full ones at the end
of the way down, and the node itself is divided when these are all. -/
theorem splits_insert (hcap : 0 < capacity) {n : Node Key} (hn : n.Balanced capacity h)
    (hlen : n.keys.length ≤ capacity) (ledger : Ledger) :
    ∃ g, n.insert capacity k ledger = .ok g ∧ g.1.Filled capacity h n.keys.length ∧
      g.2.counters = { ledger.counters with
        splits := ledger.counters.splits + n.fullRun capacity k } ∧
      g.1.levels = if n.fullRun capacity k = h + 1 then 1 else 0 := by
  refine insert_induction ledger (P := fun h n g =>
    g.2.counters = { ledger.counters with
      splits := ledger.counters.splits + n.fullRun capacity k } ∧
    g.1.levels = if n.fullRun capacity k = h + 1 then 1 else 0) ?leaf ?whole ?halves hcap hn hlen
  case leaf =>
    intro id keys hlen
    obtain ⟨hlevels, hcounters⟩ := splits_settle hlen ledger
    rw [length_withKey] at hlevels
    simp only [Nat.add_right_cancel_iff] at hlevels
    rw [hcounters, hlevels, fullRun_leaf]
    by_cases hfull : keys.length = capacity <;> simp [hfull]
  case whole =>
    intro h id before after left right c d l hopen hc hroute _ ih
    obtain ⟨hcounters, hlevels⟩ := ih
    have hrun : c.fullRun capacity k ≠ h + 1 := by
      intro hall
      simp [Growth.levels, hall] at hlevels
    have hle : c.fullRun capacity k ≠ h + 2 := by
      have := ((c.descent k).rtakeWhile_suffix (·.keys.length == capacity)).length_le
      rw [hc.1.length_descent] at this
      rw [fullRun]
      omega
    rw [fullRun_opened hopen.left_length hroute hc.1, if_neg fun h => hrun h.1, if_neg hle]
    exact ⟨hcounters, rfl⟩
  case halves =>
    intro h id before after left right c d m e l hopen hc hroute hlen _ _ ih
    obtain ⟨hcounters, hlevels⟩ := ih
    have hall : c.fullRun capacity k = h + 1 := by
      by_contra hne
      simp [Growth.levels, hne] at hlevels
    obtain ⟨hlevels', hcounters'⟩ := splits_settle
      (n := ⟨id, before ++ m :: after, left ++ d :: e :: right⟩) hlen l
    simp only [List.length_append, List.length_cons, ← Nat.add_assoc,
      Nat.add_right_cancel_iff] at hlevels'
    simp only at hcounters
    rw [hcounters', hcounters, hlevels', fullRun_opened hopen.left_length hroute hc.1, hall]
    by_cases hfull : before.length + after.length = capacity <;> simp [hfull, Nat.add_assoc]

end Node

/-! ## Repairs -/

/-- What repairs on a number of levels have added to the counters: merges from the leaf upwards, and
then perhaps one rotation, which is a small one if it comes first. If the topmost node came out a
key short, there was a merge on every level. -/
def Repairs (h : Nat) (ledger l : Ledger) (short : Prop) : Prop :=
  ∃ merges rotations, rotations ≤ 1 ∧ merges + rotations ≤ h ∧ (short → merges = h) ∧
    l.counters = ⟨ledger.counters.splits, ledger.counters.merges + merges,
      ledger.counters.smallRotations + (if merges = 0 then rotations else 0),
      ledger.counters.bigRotations + (if merges = 0 then 0 else rotations)⟩

theorem Repairs.refl (ledger : Ledger) {short : Prop} (h : Nat) (hshort : short → 0 = h) :
    Repairs h ledger ledger short :=
  ⟨0, 0, Nat.zero_le 1, Nat.zero_le h, hshort, rfl⟩

namespace Node

section Step

variable {before after others : List Key} {left right : List (Node Key)} {c d : Node Key}

/-- **One level.** If the child that was entered has come out a key short, there was a merge on
every level below, and now its parent merges or rotates; otherwise the parent does nothing. -/
theorem repairs_step (ho : Opened capacity h before after left right)
    (hc : c.Filled capacity h) (hd : Shrunk capacity h ledger c d l)
    (hothers : others.length = after.length) (hne : before ++ after ≠ []) (id : Nat)
    (hbelow : Repairs h ledger l (d.keys.length < c.keys.length)) {m : Node Key} {l' : Ledger}
    (hm : repair ⟨id, before ++ others, left ++ d :: right⟩ (capacity / 2) before.length l =
      .ok (m, l')) :
    Repairs (h + 1) ledger l' (m.keys.length < (before ++ after).length) := by
  obtain ⟨merges, rotations, hone, hle, hall, hcounters⟩ := hbelow
  have hsame : (before ++ others).length = (before ++ after).length := by
    simp [hothers]
  by_cases henough : capacity / 2 ≤ d.keys.length
  · rw [repair_of_le ho.left_length henough] at hm
    obtain ⟨rfl, rfl⟩ := Prod.mk.inj (Except.ok.inj hm)
    exact ⟨merges, rotations, hone, Nat.le_succ_of_le hle,
      fun hshort => absurd hsame (Nat.ne_of_lt hshort), hcounters⟩
  · obtain rfl : merges = h := hall (Nat.lt_of_lt_of_le (Nat.not_le.1 henough) hc.2.1)
    obtain rfl : rotations = 0 := by omega
    obtain ⟨m', l'', hm', hr⟩ := exists_repaired_of_shrunk ho hc hd hothers hne id
    obtain ⟨rfl, rfl⟩ := Prod.mk.inj (Except.ok.inj (hm'.symm.trans hm))
    rw [← hsame]
    change Repairs _ ledger _
      (_ < (keys ⟨id, before ++ others, left ++ d :: right⟩).length)
    generalize (⟨id, before ++ others, left ++ d :: right⟩ : Node Key) = n at hr
    cases hr with
    | keep hn => exact ⟨merges, 0, hone, by omega, fun h => absurd h (Nat.lt_irrefl _), hcounters⟩
    | @merge s hs hj =>
        refine ⟨merges + 1, 0, hone, Nat.le_refl _, fun _ => rfl, ?_⟩
        simp [Ledger.merge, hcounters, Nat.add_assoc]
    | @rotate s t hs ht hl hr =>
        refine ⟨merges, 1, Nat.le_refl 1, Nat.le_refl _, fun hshort => ?_, ?_⟩
        · rw [ht.around] at hshort
          simp [Seam.close] at hshort
        · by_cases hleaf : merges = 0 <;>
            simp [Ledger.rotation, Ledger.smallRotation, Ledger.bigRotation, hcounters, hleaf]

end Step

/-- The repairs on the way back from the largest key. -/
theorem repairs_removeMax (hcap : 2 ≤ capacity) {n : Node Key} (hn : n.Balanced capacity h)
    (hne : n.keys ≠ []) {e : Extraction} (he : n.removeMax (capacity / 2) ledger = .ok e) :
    Repairs h ledger e.ledger (e.node.keys.length < n.keys.length) := by
  induction h generalizing n e with
  | zero =>
      obtain ⟨id, keys, children⟩ := n
      obtain rfl : children = [] := hn
      rw [removeMax_leaf _ ledger id hne] at he
      obtain rfl := Except.ok.inj he
      exact .refl ledger 0 fun _ => rfl
  | succ h ih =>
      obtain ⟨left, c, hn', hopen, hc⟩ := hn.opened_last
      have hckeys := hc.keys_ne_nil hcap
      obtain ⟨e', he', hshrunk, -⟩ := exists_removeMax hcap hc.1 hckeys ledger
      obtain ⟨m, l, hm, -⟩ := exists_shrunk_repair hopen hc hshrunk rfl (by simpa) n.id
      have hstep := repairs_step hopen hc hshrunk rfl (by simpa) n.id (ih hc.1 hckeys he') hm
      simp only [List.append_nil] at hn' hm hstep
      rw [hn', removeMax_opened hopen.left_length he' hm] at he
      obtain rfl := Except.ok.inj he
      exact hstep

/-- **The repairs of a removal.** -/
theorem repairs_remove (hcap : 2 ≤ capacity) {n : Node Key} (hn : n.Balanced capacity h)
    (hne : n.children ≠ [] → n.keys ≠ []) (hasc : Ascending n.inorder) {r : Removal}
    (hr : n.remove (capacity / 2) k ledger = .ok r) :
    Repairs h ledger r.ledger (r.node.keys.length < n.keys.length) := by
  induction h generalizing n r with
  | zero =>
      obtain ⟨id, keys, children⟩ := n
      obtain rfl : children = [] := hn
      rw [remove] at hr
      obtain rfl := Except.ok.inj hr
      cases hslot : slotOf? ⟨id, keys, []⟩ k <;>
        simp only [removeFromLeaf, hslot] <;> exact .refl ledger 0 fun _ => rfl
  | succ h ih =>
      have hkeys := hn.keys_ne_nil hne
      cases hslot : n.slotOf? k with
      | some i =>
          obtain ⟨before, a, after, hsplit, rfl, -⟩ := slotOf?_eq_some hslot
          obtain ⟨left, c, right, hn', hopen, hc⟩ := hn.opened hsplit
          have hckeys := hc.keys_ne_nil hcap
          obtain ⟨e, he, hshrunk, -⟩ := exists_removeMax hcap hc.1 hckeys ledger
          have hothers : (e.key :: after).length = (a :: after).length := rfl
          obtain ⟨m, l, hm, -⟩ := exists_shrunk_repair hopen hc hshrunk hothers (by simp) n.id
          have hstep := repairs_step hopen hc hshrunk hothers (by simp) n.id
            (repairs_removeMax hcap hc.1 hckeys he) hm
          rw [hn'] at hslot hr ⊢
          rw [remove_opened_separator hopen.left_length hslot he hm] at hr
          obtain rfl := Except.ok.inj hr
          exact hstep
      | none =>
          obtain ⟨before, after, hsplit, hroute⟩ := exists_route k n.keys
          obtain ⟨left, c, right, hn', hopen, hc⟩ := hn.opened hsplit
          rw [hn'] at hslot hasc hr ⊢
          rw [hsplit] at hkeys
          have hcasc : Ascending c.inorder := by
            rw [inorder_open hopen.left_length] at hasc
            exact ascending_middle hasc
          have hcne : c.children ≠ [] → c.keys ≠ [] := fun _ => hc.keys_ne_nil hcap
          obtain ⟨r', hr', hshrunk, -⟩ := exists_remove (k := k) hcap hc.1 hcne hcasc ledger
          obtain ⟨m, l, hm, -⟩ := exists_shrunk_repair hopen hc hshrunk rfl hkeys n.id
          have hstep := repairs_step hopen hc hshrunk rfl hkeys n.id
            (ih hc.1 hcne hcasc hr') hm
          rw [remove_opened_child hopen.left_length hroute hslot hr' hm] at hr
          obtain rfl := Except.ok.inj hr
          exact hstep

end Node

/-! ## Trees -/

/-- The levels that are left when something was removed below a root: the root gives way when it has
lost its last key. -/
theorem Node.Shrunk.height_collapse {n m : Node Key} (hm : Shrunk capacity h ledger n m l)
    (hn : n.Balanced capacity h) (hroot : n.children ≠ [] → n.keys ≠ []) :
    m.collapse.height = h ∧ (1 ≤ h → m.keys ≠ []) ∨
      m.collapse.height + 1 = h ∧ m.keys = [] ∧ m.keys.length < n.keys.length := by
  rcases collapse_cases hm.balanced with ⟨heq, hkeys⟩ | ⟨i, c, hm', heq, hc⟩
  · refine .inl ⟨?_, fun hpos => hkeys ?_⟩
    · rw [heq]
      exact hm.balanced.height_eq
    · rw [← List.isEmpty_eq_false_iff, hm.balanced.isEmpty_eq]
      simpa using Nat.ne_of_gt hpos
  · have hnil : m.keys = [] := by rw [hm']
    have hkeys : n.keys ≠ [] := by
      refine hroot ?_
      rw [← List.isEmpty_eq_false_iff, hn.isEmpty_eq, ← hm.balanced.isEmpty_eq, hm']
      rfl
    have hopen : Opened capacity i ([] : List Key) [] [] [] := ⟨rfl, rfl, by simp⟩
    have hlevel : m.height = i + 1 := by
      rw [hm']
      exact (hopen.balanced hc m.id).height_eq
    refine .inr ⟨?_, hnil, ?_⟩
    · rw [heq, hc.1.height_eq, ← hlevel, hm.balanced.height_eq]
    · rw [hnil]
      exact List.length_pos_iff.2 hkeys

namespace Tree

variable {t u : Tree}

/-- An insertion divides the full nodes at the end of the way down, and adds a level when these
are all nodes of the way. -/
structure Divided (k : Key) (t u : Tree) : Prop where
  counters_eq : u.counters = { t.counters with
    splits := t.counters.splits + t.root.fullRun t.maxKeys k }
  height_eq : u.height = t.height + if t.root.fullRun t.maxKeys k = t.height + 1 then 1 else 0

/-- Removing a key leaves the root without keys. -/
def Empties (t : Tree) (k : Key) : Prop :=
  ∃ r, t.root.remove t.minKeys k t.ledger = .ok r ∧ r.node.keys = []

/-- A removal merges nodes, on every level once at most, and makes one rotation at most: a small one
if it has merged nothing, a big one otherwise. The root gives way when there was a merge below it
on every level and it lost its last key. -/
structure Repaired (k : Key) (t u : Tree) (merges small big : Nat) : Prop where
  counters_eq : u.counters = ⟨t.counters.splits, t.counters.merges + merges,
    t.counters.smallRotations + small, t.counters.bigRotations + big⟩
  merges_le : merges ≤ t.height
  rotations_le : small + big ≤ 1
  small_first : small = 1 → merges = 0
  big_later : big = 1 → 1 ≤ merges
  height_eq : u.height = t.height ∨ u.height + 1 = t.height
  height_lt_iff : u.height + 1 = t.height ↔ 1 ≤ t.height ∧ merges = t.height ∧ t.Empties k
  no_rotation : u.height + 1 = t.height → small = 0 ∧ big = 0

theorem repaired_refl (k : Key) (t : Tree) : Repaired k t t 0 0 0 := by
  refine ⟨rfl, Nat.zero_le _, Nat.zero_le 1, nofun, nofun, .inl rfl, ?_, fun _ => ⟨rfl, rfl⟩⟩
  omega

/-- An insertion divides what is full at the end of the way down. -/
theorem Valid.divided_add (ht : t.Valid) (hk : k.kind = t.kind) :
    ∃ u, t.add k = .ok u ∧ Divided k t u := by
  obtain ⟨h, hbal, hlen, -⟩ := t.valid_iff.1 ht
  have hcap : 0 < t.maxKeys := Nat.zero_lt_of_lt t.two_le_maxKeys
  have hheight : t.height = h := hbal.height_eq
  obtain ⟨g, hg, hfilled, hcounters, hlevels⟩ := Node.splits_insert (k := k) hcap hbal hlen t.ledger
  obtain ⟨-, -, -, hkept, -⟩ := hfilled.exists_root
  refine ⟨t.advance (Growth.root g).1 (Growth.root g).2 fun _ => t.addFrames k, ?_,
    hkept.trans hcounters, ?_⟩
  · simp [add, hk, hg]
  · rw [hheight, ← hlevels]
    exact hfilled.height_root

/-- A removal repairs what it leaves too small. -/
theorem Valid.repaired_remove (ht : t.Valid) (hk : k.kind = t.kind) :
    ∃ found u merges small big, t.remove k = .ok (found, u) ∧
      Repaired k t u merges small big := by
  obtain ⟨h, hbal, -, hroot, hasc, -⟩ := t.valid_iff.1 ht
  obtain rfl : t.height = h := hbal.height_eq
  obtain ⟨r, hr, hshrunk, -⟩ :=
    Node.exists_remove (k := k) t.two_le_maxKeys hbal hroot hasc t.ledger
  obtain ⟨merges, rotations, hone, hle, hall, hcounters⟩ :=
    Node.repairs_remove t.two_le_maxKeys hbal hroot hasc hr
  have hempties : t.Empties k ↔ r.node.keys = [] := by
    refine ⟨fun ⟨r', hr', hnil⟩ => ?_, fun hnil => ⟨r, hr, hnil⟩⟩
    obtain rfl := Except.ok.inj (hr.symm.trans hr')
    exact hnil
  refine ⟨r.found, t.advance r.node.collapse r.ledger fun _ => t.removeFrames k, merges,
    if merges = 0 then rotations else 0, if merges = 0 then 0 else rotations, ?_, ?_⟩
  · simp [remove, hk, minKeys, hr]
  have hcollapse := hshrunk.height_collapse hbal hroot
  have hafter : (t.advance r.node.collapse r.ledger fun _ => t.removeFrames k).height =
      r.node.collapse.height := rfl
  refine ⟨hcounters, by omega, ?_, ?_, ?_, ?_, ?_, ?_⟩
  · split <;> omega
  · split <;> omega
  · split <;> omega
  · rw [hafter]
    omega
  · rw [hafter, hempties]
    rcases hcollapse with ⟨hsame, hkeys⟩ | ⟨hless, hnil, hshort⟩
    · exact ⟨fun hless => by omega, fun hgone => absurd hgone.2.2 (hkeys hgone.1)⟩
    · exact ⟨fun _ => ⟨by omega, hall hshort, hnil⟩, fun _ => hless⟩
  · rw [hafter]
    rintro hless
    have hmerges : merges = t.height := hall (by omega)
    split <;> omega

/-- **The cost of one operation.** An insertion into a valid tree divides exactly the full nodes on
the way down that follow one another from the leaf upwards. It adds a level when these are all the
nodes of the way, and counts nothing else. A removal merges nodes at most once on every level, and
makes at most one rotation: a small one only if it merged nothing, a big one only after a merge. It
takes a level away exactly when it has merged on every level and emptied the root, and then it
makes no rotation; it never divides a node. -/
theorem Valid.structural_costs (ht : t.Valid) (k : Key) :
    (k.kind = t.kind → ∃ u, t.add k = .ok u ∧ Divided k t u) ∧
    ∃ found u merges small big, t.remove k = .ok (found, u) ∧
      Repaired k t u merges small big := by
  refine ⟨ht.divided_add, ?_⟩
  by_cases hk : k.kind = t.kind
  · exact ht.repaired_remove hk
  · exact ⟨false, t, 0, 0, 0, by simp [remove, hk], repaired_refl k t⟩

/-- A tree of three levels in which one key divides two nodes when it comes and merges two when it
goes. -/
theorem structural_costs_three_levels :
    let t : Tree := ⟨3, .number, ⟨9, [.ofInt 4], [
      ⟨5, [.ofInt 4, .ofInt 4, .ofInt 4], [⟨1, [.ofInt 2, .ofInt 3, .ofInt 3], []⟩,
        ⟨2, [.ofInt 4], []⟩, ⟨3, [.ofInt 4], []⟩, ⟨4, [.ofInt 4], []⟩]⟩,
      ⟨8, [.ofInt 6], [⟨6, [.ofInt 5], []⟩, ⟨7, [.ofInt 7], []⟩]⟩]⟩, ⟨9, {}⟩, none, by decide⟩
    t.Valid ∧ t.root.fullRun t.maxKeys (.ofInt 4) = 2 ∧
    (Kind.number = t.kind → ∃ u, t.add (.ofInt 4) = .ok u ∧ Divided (.ofInt 4) t u) ∧
    ∃ found u merges small big, t.remove (.ofInt 4) = .ok (found, u) ∧
      Repaired (.ofInt 4) t u merges small big := by
  intro t
  have ht : t.Valid := (check_eq_ok_iff t).1 (by decide +kernel)
  exact ⟨ht, by decide +kernel, ht.structural_costs (.ofInt 4)⟩

end Tree

end TracedTree
