import TracedTree.Proofs.Remove
import TracedTree.Proofs.RepairFrames
import TracedTree.Proofs.Tree

/-!
# Frames of a removal conserve keys

A removal shows the tree as it was until the key has been taken out of a leaf, and the keys after
from then on, the two frames of a big rotation apart. Of a key in an inner node nothing is shown to
change before its predecessor has left its leaf, as both appear in the same frame. Behind the search
each parent shows the frames of the child that was entered, and then those of its repair.

## Main definitions

* `Removal.Shown ledger n r frames`: what the frames of a removal below `n` show.

## Main statements

* `Tree.Valid.remove_frames`: the frames of a removal from a valid tree.
-/

namespace TracedTree

variable {capacity h : Nat} {k : Key} {ledger l : Ledger}

/-- What the frames of a removal below a node show: the node as it was, and then what is left of it
if the key was found. -/
def Removal.Shown (ledger : Ledger) (n : Node Key) (r : Removal) (frames : List Frame) : Prop :=
  ∃ first second, frames = first ++ second ∧ Still n.picture ledger.counters first ∧
    Settles ledger n r.node r.ledger second ∧ (second = [] ↔ r.found = false)

namespace Node

/-! ## The search -/

theorem still_searchFrames (n : Node Key) (k : Key) (last : Nat) (c : Counters) :
    Still n.picture c (n.searchFrames k last c) :=
  List.forall_mem_map.2 fun _ _ => ⟨rfl, rfl⟩

theorem still_enterFrames (n : Node Key) (i : Nat) (c : Counters) :
    Still n.picture c (n.enterFrames i c) :=
  List.forall_mem_map.2 fun _ _ => ⟨rfl, rfl⟩

theorem still_leafSearchFrames (n : Node Key) (k : Key) (c : Counters) :
    Still n.picture c (n.leafSearchFrames k c) :=
  List.forall_mem_map.2 fun _ _ => ⟨rfl, rfl⟩

theorem still_predecessorFrames (n child : Node Key) (k : Key) (i : Nat) (c : Counters) :
    Still n.picture c (n.predecessorFrames child k i c) :=
  (still_searchFrames n k _ c).append (List.forall_mem_map.2 fun _ _ => ⟨rfl, rfl⟩)

theorem still_exchangeFrames (n child : Node Key) (i : Nat) (c : Counters) :
    Still n.picture c (n.exchangeFrames child i c) := by
  simp [Still, exchangeFrames]

/-- A single frame of what is left. -/
theorem settles_singleton {n m : Node Key} {f : Frame} (hpicture : f.picture = m.picture)
    (hcounters : f.counters = ledger.counters) : Settles ledger n m ledger [f] := by
  have hstill : Still m.picture ledger.counters [f] := by simp [Still, hpicture, hcounters]
  exact .of_shows hstill.shows hstill.counted hstill.ends rfl rfl

/-! ## One step -/

section Step

variable {before after others : List Key} {left right : List (Node Key)} {c d : Node Key}
  {frames : List Frame}

/-- What is left of a child is shown within its parent, which then shows its repair. -/
theorem exists_settles_repair (ho : Opened capacity h before after left right)
    (hc : c.Filled capacity h) (hd : Shrunk capacity h ledger c d l)
    (hothers : others.length = after.length) (hne : before ++ after ≠ []) (id : Nat)
    (hs : Settles ledger c d l frames) (shown : Node Key) :
    ∃ m l', repair ⟨id, before ++ others, left ++ d :: right⟩ (capacity / 2) before.length l =
        .ok (m, l') ∧
      Settles ledger ⟨id, before ++ after, left ++ c :: right⟩ m l'
        (frames.map (Frame.within (picture ⟨id, before ++ others, left ++ shown :: right⟩)
            before.length) ++
          repairFrames ⟨id, before ++ others, left ++ d :: right⟩ (capacity / 2) before.length
            l) := by
  obtain ⟨m, l', hm, hr⟩ := exists_repaired_of_shrunk ho hc hd hothers hne id
  have hall : ∀ e ∈ left ++ d :: right, e.Balanced capacity h := by
    rw [List.forall_mem_append, List.forall_mem_cons]
    exact ⟨fun e he => (ho.filled_left e he).1, hd.balanced, fun e he => (ho.filled_right e he).1⟩
  have hchild : (left ++ d :: right)[before.length]? = some d := by simp [← ho.left_length]
  obtain ⟨hrepair, hnil⟩ := settles_repair (n := ⟨id, before ++ others, left ++ d :: right⟩) hall
    hchild hm hr.inorder_eq hr.dropped
  refine ⟨m, l', hm, (hs.within ho.left_length hothers id shown).append hrepair ?_ hnil
    hr.inorder_eq fun _ => by simp [hothers]⟩
  -- Behind a big rotation the child has as many keys as before.
  intro hmore
  by_contra hbig
  have hle := hs.counted.le.2.2.2
  refine hmore (repairFrames_of_le hchild ?_ l)
  rw [hs.kept (by omega)]
  exact hc.2.1

end Step

/-! ## The largest key -/

theorem removeMaxFrames_leaf (minimum : Nat) (ledger : Ledger) (id : Nat) {keys : List Key}
    (hne : keys ≠ []) : removeMaxFrames minimum ledger ⟨id, keys, []⟩ =
      [⟨picture ⟨id, keys.dropLast, []⟩, .none, ledger.counters⟩] := by
  have hlast : removeLast ⟨id, keys, []⟩ ledger = .ok _ := removeMax_leaf minimum ledger id hne
  rw [removeMaxFrames, hlast]
  rfl

theorem removeMaxFramesAt_append (minimum : Nat) (ledger : Ledger) (left : List (Node Key))
    (c : Node Key) (right : List (Node Key)) :
    removeMaxFramesAt minimum ledger left.length (left ++ c :: right) =
      removeMaxFrames minimum ledger c := by
  induction left with
  | nil => rfl
  | cons d left ih => exact ih

theorem removeMaxFrames_opened {minimum : Nat} {keys : List Key} {left : List (Node Key)}
    {c : Node Key} {e : Extraction} {id : Nat} (h : left.length = keys.length)
    (he : c.removeMax minimum ledger = .ok e) :
    removeMaxFrames minimum ledger ⟨id, keys, left ++ [c]⟩ =
      (removeMaxFrames minimum ledger c).map
          (Frame.within (picture ⟨id, keys, left ++ [c]⟩) keys.length) ++
        repairFrames ⟨id, keys, left ++ [e.node]⟩ minimum keys.length e.ledger := by
  have hat := removeMaxAt_append minimum ledger left c []
  have hframes := removeMaxFramesAt_append minimum ledger left c []
  have hchild := withChild_append (Eq.refl left.length) [] id keys c e.node
  rw [removeMaxFrames]
  simp [hat, hframes, he, hchild, ← h]

/-- The frames of taking out the largest key show what is left from the beginning. -/
theorem settles_removeMax (hcap : 2 ≤ capacity) {n : Node Key} (hn : n.Balanced capacity h)
    (hne : n.keys ≠ []) {e : Extraction} (he : n.removeMax (capacity / 2) ledger = .ok e) :
    n.removeMaxFrames (capacity / 2) ledger ≠ [] ∧
      Settles ledger n e.node e.ledger (n.removeMaxFrames (capacity / 2) ledger) := by
  induction h generalizing n e with
  | zero =>
      obtain ⟨id, keys, children⟩ := n
      obtain rfl : children = [] := hn
      obtain rfl := Except.ok.inj ((removeMax_leaf _ ledger id hne).symm.trans he)
      rw [removeMaxFrames_leaf _ _ _ hne]
      exact ⟨by simp, settles_singleton rfl rfl⟩
  | succ h ih =>
      obtain ⟨left, c, hn', hopen, hc⟩ := hn.opened_last
      have hkeys := hc.keys_ne_nil hcap
      obtain ⟨e', he', hshrunk, -⟩ := exists_removeMax hcap hc.1 hkeys ledger
      obtain ⟨hne', hsettles⟩ := ih hc.1 hkeys he'
      obtain ⟨m, l, hm, hm'⟩ := exists_settles_repair hopen hc hshrunk rfl (by simpa) n.id
        hsettles c
      simp only [List.append_nil] at hn' hm hm'
      rw [hn'] at he ⊢
      obtain rfl := Except.ok.inj ((removeMax_opened hopen.left_length he' hm).symm.trans he)
      rw [removeMaxFrames_opened hopen.left_length he']
      exact ⟨by simp [hne'], hm'⟩

/-! ## Finding the key -/

theorem removeFramesAt_append (minimum : Nat) (ledger : Ledger) (left : List (Node Key))
    (c : Node Key) (right : List (Node Key)) :
    removeFramesAt minimum k ledger left.length (left ++ c :: right) =
      removeFrames minimum k ledger c := by
  induction left with
  | nil => rfl
  | cons d left ih => exact ih

/-- In a leaf the key is taken out between two frames, or there is none and nothing changes. -/
theorem shown_removeFromLeaf (n : Node Key) (k : Key) (ledger : Ledger) :
    (n.removeFromLeaf k ledger).Shown ledger n (n.leafRemoveFrames k ledger) := by
  have hsearch := still_leafSearchFrames n k ledger.counters
  cases hslot : n.slotOf? k with
  | none =>
      have hremoval : n.removeFromLeaf k ledger = ⟨false, n, ledger⟩ := by
        rw [removeFromLeaf, hslot]
      rw [hremoval, leafRemoveFrames, hslot]
      refine ⟨_, [], (List.append_nil _).symm, hsearch.append ?_, .nil ledger n, by simp⟩
      simp [Still]
  | some slot =>
      have hremoval : n.removeFromLeaf k ledger =
          ⟨true, { n with keys := n.keys.eraseIdx slot }, ledger⟩ := by
        rw [removeFromLeaf, hslot]
      rw [leafRemoveFrames, hslot, hremoval]
      refine ⟨_, _, List.append_cons .., hsearch.append ?_, settles_singleton rfl rfl, by simp⟩
      simp [Still]

section Inner

variable {id minimum : Nat} {before after : List Key} {left right : List (Node Key)} {c : Node Key}

theorem removeFrames_opened_separator {a : Key} {e : Extraction} (h : left.length = before.length)
    (hslot : slotOf? ⟨id, before ++ a :: after, left ++ c :: right⟩ k = some before.length)
    (he : c.removeMax minimum ledger = .ok e) :
    removeFrames minimum k ledger ⟨id, before ++ a :: after, left ++ c :: right⟩ =
      predecessorFrames ⟨id, before ++ a :: after, left ++ c :: right⟩ c k before.length
          ledger.counters ++
        exchangeFrames ⟨id, before ++ a :: after, left ++ c :: right⟩ c before.length
          ledger.counters ++
        ((removeMaxFrames minimum ledger c).map (Frame.within
            (picture ⟨id, before ++ e.key :: after, left ++ c :: right⟩) before.length) ++
          repairFrames ⟨id, before ++ e.key :: after, left ++ e.node :: right⟩ minimum
            before.length e.ledger) := by
  have hat := removeMaxAt_append minimum ledger left c right
  rw [h] at hat
  have hchild : (left ++ c :: right)[before.length]? = some c := by simp [← h]
  rw [removeFrames]
  simp [hslot, replaceFrames, hat, he, hchild, withPredecessor_append h]

theorem removeFrames_opened_child {r : Removal} (h : left.length = before.length)
    (hroute : Route k before after)
    (hslot : slotOf? ⟨id, before ++ after, left ++ c :: right⟩ k = none)
    (hr : remove minimum k ledger c = .ok r) :
    removeFrames minimum k ledger ⟨id, before ++ after, left ++ c :: right⟩ =
      searchFrames ⟨id, before ++ after, left ++ c :: right⟩ k (2 * before.length)
          ledger.counters ++
        enterFrames ⟨id, before ++ after, left ++ c :: right⟩ before.length ledger.counters ++
        ((removeFrames minimum k ledger c).map (Frame.within
            (picture ⟨id, before ++ after, left ++ c :: right⟩) before.length) ++
          repairFrames ⟨id, before ++ after, left ++ r.node :: right⟩ minimum before.length
            r.ledger) := by
  have hat := removeAt_append (k := k) minimum ledger left c right
  have hframes := removeFramesAt_append (k := k) minimum ledger left c right
  rw [h] at hat hframes
  have hi : childIndex ⟨id, before ++ after, left ++ c :: right⟩ k = before.length := by
    simp only [childIndex, hroute.takeWhile_eq]
  rw [removeFrames]
  simp [hslot, hi, hat, hframes, hr, withChild_append h]

end Inner

/-- **The frames of a removal below a node** show the node as it was, and then what is left. -/
theorem shown_remove (hcap : 2 ≤ capacity) {n : Node Key} (hn : n.Balanced capacity h)
    (hne : n.children ≠ [] → n.keys ≠ []) (hasc : Ascending n.inorder) {r : Removal}
    (hr : n.remove (capacity / 2) k ledger = .ok r) :
    r.Shown ledger n (n.removeFrames (capacity / 2) k ledger) := by
  induction h generalizing n r with
  | zero =>
      obtain ⟨id, keys, children⟩ := n
      obtain rfl : children = [] := hn
      obtain rfl : removeFromLeaf ⟨id, keys, []⟩ k ledger = r := Except.ok.inj hr
      exact shown_removeFromLeaf _ k ledger
  | succ h ih =>
      have hkeys := hn.keys_ne_nil hne
      cases hslot : n.slotOf? k with
      | some i =>
          obtain ⟨before, a, after, hsplit, rfl, hsame⟩ := slotOf?_eq_some hslot
          obtain ⟨left, c, right, hn', hopen, hc⟩ := hn.opened hsplit
          have hi := hopen.left_length
          have hkeys' := hc.keys_ne_nil hcap
          rw [hn'] at hslot hr ⊢
          obtain ⟨e, he, hshrunk, -⟩ := exists_removeMax hcap hc.1 hkeys' ledger
          obtain ⟨hne', hsettles⟩ := settles_removeMax hcap hc.1 hkeys' he
          have hothers : (e.key :: after).length = (a :: after).length := rfl
          obtain ⟨m, l, hm, hm'⟩ := exists_settles_repair hopen hc hshrunk hothers (by simp) n.id
            hsettles c
          obtain rfl := Except.ok.inj ((remove_opened_separator hi hslot he hm).symm.trans hr)
          rw [removeFrames_opened_separator hi hslot he]
          exact ⟨_, _, rfl,
            (still_predecessorFrames _ c k _ _).append (still_exchangeFrames _ c _ _), hm',
            by simp [hne']⟩
      | none =>
          obtain ⟨before, after, hsplit, hroute⟩ := exists_route k n.keys
          obtain ⟨left, c, right, hn', hopen, hc⟩ := hn.opened hsplit
          have hi := hopen.left_length
          rw [hn'] at hslot hasc hr ⊢
          rw [hsplit] at hkeys
          have hcasc : Ascending c.inorder := by
            rw [inorder_open hi] at hasc
            exact ascending_middle hasc
          have hkeys' := hc.keys_ne_nil hcap
          obtain ⟨r', hr', hshrunk, hacc⟩ := exists_remove (k := k) hcap hc.1 (fun _ => hkeys')
            hcasc ledger
          obtain ⟨first, second, hframes, hfirst, hsettles, hfound⟩ :=
            ih hc.1 (fun _ => hkeys') hcasc hr'
          have hsearch : Still (picture ⟨n.id, before ++ after, left ++ c :: right⟩) ledger.counters
              (searchFrames ⟨n.id, before ++ after, left ++ c :: right⟩ k (2 * before.length)
                  ledger.counters ++
                enterFrames ⟨n.id, before ++ after, left ++ c :: right⟩ before.length
                  ledger.counters ++
                first.map (Frame.within (picture ⟨n.id, before ++ after, left ++ c :: right⟩)
                  before.length)) :=
            ((still_searchFrames _ k _ _).append (still_enterFrames _ _ _)).append
              (hfirst.within hi)
          -- Where the key was not found the child is the same, and needs no repair.
          have hquiet : r'.found = false →
              repairFrames ⟨n.id, before ++ after, left ++ r'.node :: right⟩ (capacity / 2)
                before.length r'.ledger = [] := by
            intro habsent
            cases hacc with
            | found => cases habsent
            | absent =>
                have hchild : (left ++ c :: right)[before.length]? = some c := by simp [← hi]
                exact repairFrames_of_le hchild hc.2.1 ledger
          obtain ⟨m, l, hm, hm'⟩ := exists_settles_repair hopen hc hshrunk rfl hkeys n.id hsettles c
          obtain rfl := Except.ok.inj ((remove_opened_child hi hroute hslot hr' hm).symm.trans hr)
          rw [removeFrames_opened_child hi hroute hslot hr', hframes, List.map_append,
            List.append_assoc _ (second.map _), ← List.append_assoc _ (first.map _)]
          refine ⟨_, _, rfl, hsearch, hm', ?_⟩
          rw [List.append_eq_nil_iff, List.map_eq_nil_iff, hfound]
          exact ⟨And.left, fun habsent => ⟨habsent, hquiet habsent⟩⟩

/-! ## The whole removal -/

/-- A root that gives way to its only child is shown once more. -/
theorem settles_collapse {n m : Node Key} {frames : List Frame} (hn : n.Balanced capacity h)
    (hm : m.Balanced capacity h) (hroot : n.children ≠ [] → n.keys ≠ [])
    (hs : Settles ledger n m l frames) :
    Settles ledger n m.collapse l (frames ++ m.collapseFrames l) := by
  rcases collapse_cases hm with ⟨heq, hkeep⟩ | ⟨i, c, hm', heq, -⟩
  · have hnil : m.collapseFrames l = [] := by
      rw [collapseFrames, if_neg]
      simpa [imp_not_comm] using hkeep
    rw [heq, hnil, List.append_nil]
    exact hs
  · have hframes : Settles l m m.collapse l (m.collapseFrames l) := by
      rw [collapseFrames, if_pos (by rw [hm']; rfl)]
      exact settles_singleton rfl rfl
    refine hs.append hframes (fun _ => ?_) ?_ ?_ fun hlt => absurd hlt (Nat.lt_irrefl _)
    · -- Behind a big rotation the root has as many keys as before, and that is not none.
      by_contra hbig
      have hle := hs.counted.le.2.2.2
      have hlen := hs.kept (by omega)
      rw [hm'] at hlen
      refine hroot ?_ (List.length_eq_zero_iff.1 hlen.symm)
      rw [← List.isEmpty_eq_false_iff, hn.isEmpty_eq, ← hm.isEmpty_eq, hm']
      rfl
    · rw [collapseFrames, if_pos (by rw [hm']; rfl)]
      nofun
    · rw [heq, hm', inorder_inner (by simp)]
      simp

end Node

namespace Tree

variable {t u : Tree}

/-- What the frames of a removal show, from a tree `t` to a tree `u`. -/
structure ShowsRemoval (t u : Tree) (found : Bool) (first second transfer rest : List Frame) :
    Prop where
  /-- At first the keys before are shown. -/
  before : first ≠ [] ∧ ∀ f ∈ first, f.picture.inorder = t.keys.map Key.label
  /-- Nothing else is shown of a key that is absent. -/
  absent : found = false → second = [] ∧ transfer = [] ∧ rest = []
  /-- Then the keys after are shown. -/
  after : (found = true → second ≠ []) ∧
    ∀ f ∈ second ++ rest, f.picture.inorder = u.keys.map Key.label
  /-- The exception are two frames for each big rotation, of which there is at most one. -/
  rotations : transfer.length + 2 * t.counters.bigRotations = 2 * u.counters.bigRotations ∧
    u.counters.bigRotations ≤ t.counters.bigRotations + 1 ∧ (transfer ≠ [] → rest ≠ [])
  /-- They show the keys after and a blank, and an empty node that the tree does not have. -/
  transfers : ∀ f ∈ transfer, f.picture.inorder.Perm (u.keys.map Key.label ++ [" "]) ∧
    ∃ id, id ∉ u.root.ids ∧ ⟨id, [], []⟩ ∈ f.picture.preorder ∧
      f.picture.ids.Perm (u.root.ids ++ [id])
  /-- The counters begin with those before and never fall. -/
  counters : (first ++ second ++ transfer ++ rest).head?.map Frame.counters = some t.counters ∧
    ((first ++ second ++ transfer ++ rest).map Frame.counters).Pairwise (· ≤ ·)
  /-- The frames end with the tree at rest. -/
  last : ∃ f, (first ++ second ++ transfer ++ rest).getLast? = some f ∧
    f.picture = u.settledFrame.picture ∧ f.counters = u.settledFrame.counters

/-- Frames that show the tree as it was, and frames that show what is left of its root. -/
theorem showsRemoval_of_settles {found : Bool} {first frames : List Frame}
    (hfirst : Still t.root.picture t.counters first) (hne : first ≠ [])
    (hsettles : Settles t.ledger t.root u.root u.ledger frames)
    (hfound : found = true → frames ≠ [])
    (habsent : found = false → frames = [] ∧ u.root = t.root ∧ u.ledger = t.ledger)
    (hfresh : t.ledger.proposedId ∉ u.root.ids) :
    ∃ second transfer rest, frames = second ++ transfer ++ rest ∧
      ShowsRemoval t u found first second transfer rest := by
  obtain ⟨second, transfer, rest, hframes, hsecond, hshows, htransfer, hcount, hrest⟩ :=
    hsettles.exists_parts
  have hwhole : first ++ second ++ transfer ++ rest = first ++ frames := by
    rw [hframes]
    simp
  refine ⟨second, transfer, rest, hframes, ⟨⟨hne, hfirst.shows⟩, fun h => ?_,
    ⟨fun h => hsecond (hfound h), hshows⟩, ⟨hcount, hsettles.once, hrest⟩, fun f hf => ?_, ?_, ?_⟩⟩
  · have hnil := (habsent h).1
    rw [hframes] at hnil
    simpa [and_assoc] using hnil
  · obtain ⟨b, hb, hblanked⟩ := htransfer f hf
    rw [hb, Node.inorder_picture, Node.ids_picture]
    refine ⟨?_, t.ledger.proposedId, hfresh, ?_, hblanked.ids⟩
    · simpa [keys, Key.label, blankLabel] using hblanked.keys.map Key.label
    · rw [Node.picture, Node.preorder_map]
      exact List.mem_map.2 ⟨_, hblanked.place, Node.picture_mk ..⟩
  · rw [hwhole]
    refine ⟨?_, (hfirst.counted.append hsettles.counted).sorted⟩
    obtain ⟨f, first, rfl⟩ := List.exists_cons_of_ne_nil hne
    rw [List.cons_append, List.head?_cons, Option.map_some, (hfirst f List.mem_cons_self).2]
  · rw [hwhole]
    by_cases hnil : frames = []
    · have hfalse : found = false := by
        cases found with
        | false => rfl
        | true => exact absurd hnil (hfound rfl)
      obtain ⟨-, hroot, hledger⟩ := habsent hfalse
      rw [hnil, List.append_nil, settledFrame, picture, counters, hroot, hledger]
      exact ⟨_, List.getLast?_eq_some_getLast hne, hfirst _ (List.getLast_mem hne)⟩
    · rw [List.getLast?_append_of_ne_nil _ hnil]
      have hlast := List.getLast?_eq_some_getLast hnil
      exact ⟨_, hlast, hsettles.ends _ hlast⟩

/-- **The frames of a removal conserve keys.** They first show the keys before, from left to right,
and then the keys after, or the keys before throughout where the key is absent. The exception are
the two frames of a big rotation, which show a blank and an empty node besides. The counters begin
with those before and never fall, and the last frame is that of the tree at rest, but for what it
emphasizes. -/
theorem Valid.remove_frames (ht : t.Valid) (hk : k.kind = t.kind) :
    ∃ found u first second transfer rest, t.remove k = .ok (found, u) ∧
      t.removeFrames k = first ++ second ++ transfer ++ rest ∧
      u.recording = t.recording.map (· ++ (first ++ second ++ transfer ++ rest)) ∧
      (found = true ↔ ∃ a ∈ t.keys, k.same a) ∧
      ShowsRemoval t u found first second transfer rest := by
  obtain ⟨h, hbal, -, hroot, hasc, -⟩ := t.valid_iff.1 ht
  have hcap := t.two_le_maxKeys
  obtain ⟨r, hr, hshrunk, hacc⟩ := Node.exists_remove (k := k) hcap hbal hroot hasc t.ledger
  obtain ⟨first, second, hframes, hfirst, hsettles, hnone⟩ :=
    Node.shown_remove hcap hbal hroot hasc hr
  have hremove : t.remove k = .ok (r.found,
      t.advance r.node.collapse r.ledger fun _ => t.removeFrames k) := by
    simp [remove, hk, minKeys, hr]
  obtain ⟨found, u, hu, hvalid, -, hkeys⟩ := ht.exists_remove hk
  obtain ⟨rfl, rfl⟩ := Prod.mk.inj (Except.ok.inj (hremove.symm.trans hu))
  have hfirst' : Still t.root.picture t.counters
      (t.announcement ("Removing " ++ k.label) :: first) :=
    List.forall_mem_cons.2 ⟨⟨rfl, rfl⟩, hfirst⟩
  have hcollapse := Node.settles_collapse hbal hshrunk.balanced hroot hsettles
  have habsent : r.found = false → second ++ r.node.collapseFrames r.ledger = [] ∧
      r.node.collapse = t.root ∧ r.ledger = t.ledger := by
    intro h
    rw [hnone.2 h]
    cases hacc with
    | found => cases h
    | absent =>
        refine ⟨?_, hbal.collapse_eq hroot, rfl⟩
        rw [List.nil_append, Node.collapseFrames, if_neg]
        simpa [imp_not_comm] using hroot
  have hfresh : t.ledger.proposedId ∉ r.node.collapse.ids := by
    intro hid
    have hle := hvalid.ids_le _ hid
    rw [advance_ledger, hsettles.lastId_eq, Ledger.proposedId] at hle
    omega
  obtain ⟨after, transfer, rest, hparts, hshows⟩ := showsRemoval_of_settles
    (u := t.advance r.node.collapse r.ledger fun _ => t.removeFrames k) hfirst' (by simp) hcollapse
    (fun hfound hnil => by simp [hnone.1 (List.append_eq_nil_iff.1 hnil).1] at hfound) habsent
    hfresh
  have hwhole : t.removeFrames k =
      (t.announcement ("Removing " ++ k.label) :: first) ++ after ++ transfer ++ rest := by
    rw [List.append_assoc, List.append_assoc, ← List.append_assoc after, ← hparts, removeFrames,
      minKeys, hr, hframes, ok_toOption, Option.toList_some, List.flatMap_singleton]
    simp
  refine ⟨_, _, _, _, _, _, hremove, hwhole, by rw [← hwhole]; rfl, ?_, hshows⟩
  rcases hkeys with ⟨hfound, hremoved⟩ | ⟨hfound, hnone, -⟩
  · have hany := hremoved.any_same
    rw [List.any_eq_true] at hany
    simp [hfound, hany]
  · rw [hfound]
    constructor
    · intro h
      cases h
    · rintro ⟨a, ha, hsame⟩
      exact absurd hsame (hnone a ha)

/-- A removal with a merge of leaves and a big rotation above it. -/
theorem remove_frames_big_rotation :
    let t : Tree := ⟨2, .text, ⟨9, [.text "d"],
      [⟨7, [.text "b"], [⟨1, [.text "a"], []⟩, ⟨2, [.text "c"], []⟩]⟩,
        ⟨8, [.text "f", .text "h"],
          [⟨3, [.text "e"], []⟩, ⟨4, [.text "g"], []⟩, ⟨5, [.text "i"], []⟩]⟩]⟩,
      ⟨9, {}⟩, some [], by decide⟩
    let u : Tree := ⟨2, .text, ⟨9, [.text "f"],
      [⟨7, [.text "d"], [⟨1, [.text "b", .text "c"], []⟩, ⟨3, [.text "e"], []⟩]⟩,
        ⟨8, [.text "h"], [⟨4, [.text "g"], []⟩, ⟨5, [.text "i"], []⟩]⟩]⟩,
      ⟨9, ⟨0, 1, 0, 1⟩⟩, some (t.removeFrames (.text "a")), by decide⟩
    t.Valid ∧ t.remove (.text "a") = .ok (true, u) ∧
      ∃ first second transfer rest,
        t.removeFrames (.text "a") = first ++ second ++ transfer ++ rest ∧ transfer.length = 2 ∧
        ShowsRemoval t u true first second transfer rest := by
  intro t u
  have ht : t.Valid := (check_eq_ok_iff t).1 (by decide)
  have hroot : t.root.remove t.minKeys (.text "a") t.ledger =
      .ok ⟨true, u.root, u.ledger⟩ := by decide
  have hremove : t.remove (.text "a") = .ok (true, u) := by
    rw [remove, if_neg (by decide), hroot]
    rfl
  obtain ⟨found, v, first, second, transfer, rest, hv, hframes, -, -, hshows⟩ :=
    ht.remove_frames (k := .text "a") rfl
  obtain ⟨rfl, rfl⟩ := Prod.mk.inj (Except.ok.inj (hremove.symm.trans hv))
  exact ⟨ht, hremove, first, second, transfer, rest, hframes, hshows.rotations.1, hshows⟩

end Tree

end TracedTree
