import TracedTree.Frame.Remove
import TracedTree.Proofs.Frames
import TracedTree.Proofs.Repair

/-!
# Frames of a repair conserve keys

A repair shows the keys of the node throughout, with one exception: while a grandchild moves in a
big rotation, two frames show a tree that is not live, in which a blank stands for the key that was
raised and an empty node for the place of the grandchild. A big rotation leaves the node as many
keys as before, so no repair comes after it on the way up, and there is at most one of them.

## Main definitions

* `Blanked id n b`: the node `b` is `n` with a blank among the keys and an empty node below it.
* `Settles ledger n m l frames`: the frames show the keys of `m`, but for those of a big rotation.
-/

namespace TracedTree

variable {capacity h : Nat} {ledger l : Ledger}

/-! ## Frames that show what is left -/

/-- The node has the keys of another one and a blank, and the nodes of the other one and an empty
one with a given identity. -/
structure Blanked (id : Nat) (n b : Node Key) : Prop where
  keys : b.inorder.Perm (n.inorder ++ [.text blankLabel])
  ids : b.ids.Perm (n.ids ++ [id])
  place : ⟨id, [], []⟩ ∈ b.preorder

/-- The frames show the keys of `m`, which is left of `n`, from left to right and end with `m`
itself; between them are two frames for a big rotation, which can only come last among the repairs
as it does not make the node smaller. -/
structure Settles (ledger : Ledger) (n m : Node Key) (l : Ledger) (frames : List Frame) : Prop where
  parts : ∃ second transfer rest, frames = second ++ transfer ++ rest ∧
    Shows m.inorder (second ++ rest) ∧
    (∀ f ∈ transfer, ∃ b : Node Key, f.picture = b.picture ∧ Blanked ledger.proposedId m b) ∧
    transfer.length + 2 * ledger.counters.bigRotations = 2 * l.counters.bigRotations ∧
    (transfer ≠ [] → second ≠ [] ∧ rest ≠ [])
  counted : Counted ledger.counters frames l.counters
  ends : Ends m.picture l.counters frames
  once : l.counters.bigRotations ≤ ledger.counters.bigRotations + 1
  kept : ledger.counters.bigRotations < l.counters.bigRotations →
    m.keys.length = n.keys.length
  lastId_eq : l.lastId = ledger.lastId

namespace Settles

variable {n m o : Node Key} {l' : Ledger} {frames more : List Frame}

theorem nil (ledger : Ledger) (n : Node Key) : Settles ledger n n ledger [] :=
  ⟨⟨[], [], [], rfl, shows_nil, nofun, Nat.zero_add _, nofun⟩, .nil (le_refl _), ends_nil,
    Nat.le_succ _, fun _ => rfl, rfl⟩

/-- Frames that are not empty begin with some that show the keys. -/
theorem exists_parts (h : Settles ledger n m l frames) :
    ∃ second transfer rest, frames = second ++ transfer ++ rest ∧ (frames ≠ [] → second ≠ []) ∧
      Shows m.inorder (second ++ rest) ∧
      (∀ f ∈ transfer, ∃ b : Node Key, f.picture = b.picture ∧ Blanked ledger.proposedId m b) ∧
      transfer.length + 2 * ledger.counters.bigRotations = 2 * l.counters.bigRotations ∧
      (transfer ≠ [] → rest ≠ []) := by
  obtain ⟨second, transfer, rest, rfl, hshows, htransfer, hcount, hne⟩ := h.parts
  by_cases hnone : transfer = []
  · subst hnone
    exact ⟨second ++ rest, [], [], by simp, by simp, by simpa using hshows, nofun, hcount, nofun⟩
  · exact ⟨second, transfer, rest, rfl, fun _ => (hne hnone).1, hshows, htransfer, hcount,
      fun _ => (hne hnone).2⟩

/-- Frames without a big rotation. -/
theorem of_shows (hshows : Shows m.inorder frames)
    (hcounted : Counted ledger.counters frames l.counters)
    (hends : Ends m.picture l.counters frames)
    (hbig : l.counters.bigRotations = ledger.counters.bigRotations)
    (hlast : l.lastId = ledger.lastId) : Settles ledger n m l frames := by
  refine ⟨⟨frames, [], [], by simp, by simpa using hshows, nofun, ?_, nofun⟩, hcounted, hends,
    ?_, ?_, hlast⟩
  · rw [List.length_nil, Nat.zero_add, hbig]
  · omega
  · omega

/-- Another repair behind these frames, unless it comes behind a big rotation. -/
theorem append (h : Settles ledger n m l frames) (h' : Settles l m o l' more)
    (hquiet : more ≠ [] → l.counters.bigRotations = ledger.counters.bigRotations)
    (hnil : more = [] → o = m ∧ l' = l) (hinorder : o.inorder = m.inorder)
    (hlen : l.counters.bigRotations < l'.counters.bigRotations →
      m.keys.length = n.keys.length) : Settles ledger n o l' (frames ++ more) := by
  by_cases hmore : more = []
  · obtain ⟨rfl, rfl⟩ := hnil hmore
    rwa [hmore, List.append_nil]
  have hbig := hquiet hmore
  have hid : l.proposedId = ledger.proposedId := by
    rw [Ledger.proposedId, Ledger.proposedId, h.lastId_eq]
  obtain ⟨second, transfer, rest, rfl, hshows, -, hcount, -⟩ := h.parts
  obtain ⟨second', transfer', rest', rfl, hshows', htransfer', hcount', hne'⟩ := h'.parts
  obtain rfl : transfer = [] := List.length_eq_zero_iff.1 (by omega)
  rw [← hinorder] at hshows
  refine ⟨⟨second ++ rest ++ second', transfer', rest', by simp, ?_, ?_, ?_, ?_⟩,
    h.counted.append h'.counted, h'.ends.append hmore, ?_, ?_, h'.lastId_eq.trans h.lastId_eq⟩
  · rw [List.append_assoc]
    exact hshows.append hshows'
  · rw [← hid]
    exact htransfer'
  · omega
  · exact fun hne => ⟨by simp [(hne' hne).1], (hne' hne).2⟩
  · have := h'.once
    omega
  · intro hlt
    rw [h'.kept (by omega), hlen (by omega)]

end Settles

/-! ## Within the parent -/

section Within

variable {before after others : List Key} {left right : List (Node Key)} {b c d : Node Key}
  {frames : List Frame}

theorem Blanked.within {id : Nat} (hb : Blanked id d b) (h : left.length = before.length)
    (i : Nat) :
    Blanked id ⟨i, before ++ after, left ++ d :: right⟩
      ⟨i, before ++ after, left ++ b :: right⟩ := by
  refine ⟨?_, ?_, ?_⟩
  · rw [Node.inorder_open h, Node.inorder_open h]
    exact Node.perm_around hb.keys _ _
  · have hids := Node.perm_around hb.ids (i :: left.flatMap Node.ids) (right.flatMap Node.ids)
    simpa [Node.ids_mk] using hids
  · exact Node.mem_preorder_of_mem_children (c := b) (by simp) hb.place

/-- What is left of a child is shown within its parent. -/
theorem Settles.within (hs : Settles ledger c d l frames) (h : left.length = before.length)
    (hothers : others.length = after.length) (id : Nat) (shown : Node Key) :
    Settles ledger ⟨id, before ++ after, left ++ c :: right⟩
      ⟨id, before ++ others, left ++ d :: right⟩ l
      (frames.map (Frame.within (Node.picture ⟨id, before ++ others, left ++ shown :: right⟩)
        before.length)) := by
  obtain ⟨second, transfer, rest, rfl, hshows, htransfer, hcount, hne⟩ := hs.parts
  refine ⟨⟨_, _, _, by rw [List.map_append, List.map_append], ?_, ?_, ?_, ?_⟩,
    hs.counted.within _ _, hs.ends.within h, hs.once, fun _ => ?_, hs.lastId_eq⟩
  · rw [← List.map_append, Node.inorder_open h]
    exact hshows.within h
  · refine List.forall_mem_map.2 fun f hf => ?_
    obtain ⟨b, hf', hb⟩ := htransfer f hf
    refine ⟨_, ?_, hb.within h id⟩
    rw [Frame.within, withChild_picture h, hf']
    simp
  · rwa [List.length_map]
  · simpa using hne
  · simp [hothers]

end Within

/-! ## Rotations -/

section Still

variable {n m : Node Key} {frames : List Frame} {f : Frame}

/-- The node before and the node after, without a big rotation between them. -/
theorem Settles.of_still (hstill : Still n.picture ledger.counters frames)
    (hf : f.picture = m.picture ∧ f.counters = l.counters) (hinorder : m.inorder = n.inorder)
    (hle : ledger.counters ≤ l.counters)
    (hbig : l.counters.bigRotations = ledger.counters.bigRotations)
    (hlast : l.lastId = ledger.lastId) : Settles ledger n m l (frames ++ [f]) := by
  have hafter : Still m.picture l.counters [f] := by simpa [Still] using hf
  refine .of_shows ?_ (hstill.counted.append (.of_forall hle fun g hg => (hafter g hg).2))
    (hafter.ends.append (by simp)) hbig hlast
  refine Shows.append ?_ hafter.shows
  rw [hinorder]
  exact hstill.shows

/-- A big rotation: the node before, the transfer of a grandchild, and the node after. -/
theorem Settles.of_transfer {transfer : List Frame}
    (hstill : Still n.picture ledger.counters frames) (hne : frames ≠ [])
    (hf : f.picture = m.picture ∧ f.counters = ledger.bigRotation.counters)
    (htransfer : ∀ g ∈ transfer, (∃ b : Node Key, g.picture = b.picture ∧
      Blanked ledger.proposedId m b) ∧ g.counters = ledger.bigRotation.counters)
    (htwo : transfer.length = 2) (hinorder : m.inorder = n.inorder)
    (hlen : m.keys.length = n.keys.length) :
    Settles ledger n m ledger.bigRotation (frames ++ transfer ++ [f]) := by
  have hle : ledger.counters ≤ ledger.bigRotation.counters :=
    ⟨Nat.le_refl _, Nat.le_refl _, Nat.le_refl _, Nat.le_succ _⟩
  have hafter : Still m.picture ledger.bigRotation.counters [f] := by simpa [Still] using hf
  refine ⟨⟨frames, transfer, [f], rfl, Shows.append ?_ hafter.shows,
    fun g hg => (htransfer g hg).1, ?_, fun _ => ⟨hne, by simp⟩⟩,
    (hstill.counted.append (.of_forall hle fun g hg => (htransfer g hg).2)).append hafter.counted,
    hafter.ends.append (by simp), Nat.le_refl _, fun _ => hlen, rfl⟩
  · rw [hinorder]
    exact hstill.shows
  · simp only [htwo, Ledger.bigRotation]
    omega

/-- A rotation drops no identity, so a blank and an empty node are in both nodes or in none. -/
theorem Blanked.rotation {id : Nat} {b : Node Key} {big : Bool} (hb : Blanked id n b)
    (hinorder : m.inorder = n.inorder)
    (hdropped : Dropped ledger (ledger.rotation big) n.ids m.ids) : Blanked id m b := by
  obtain ⟨dropped, hperm, -, hmerges, -⟩ := hdropped
  have hnone : (ledger.rotation big).counters.merges = ledger.counters.merges := by
    cases big <;> rfl
  obtain rfl : dropped = [] := List.length_eq_zero_iff.1 (by omega)
  rw [List.append_nil] at hperm
  refine ⟨?_, hb.ids.trans (hperm.append_right _), hb.place⟩
  rw [hinorder]
  exact hb.keys

/-- A rotation is announced by the frame of an underflow. -/
theorem Settles.rotation {r : Rotation} (hf : f.picture = n.picture ∧ f.counters = ledger.counters)
    (hbefore : r.before = n.picture) (hafter : r.after = m.picture)
    (hinorder : m.inorder = n.inorder) (hlen : m.keys.length = n.keys.length)
    (hdropped : Dropped ledger (ledger.rotation r.moved.isSome) n.ids m.ids)
    (hbetween : r.moved.isSome → ∃ b : Node Key, r.between = b.picture ∧
      Blanked ledger.proposedId n b) :
    Settles ledger n m (ledger.rotation r.moved.isSome)
      (f :: r.frames ledger.counters (ledger.rotation r.moved.isSome).counters) := by
  have hstill : ∀ g g' : Frame, g.picture = r.before ∧ g.counters = ledger.counters →
      g'.picture = r.before ∧ g'.counters = ledger.counters →
      Still n.picture ledger.counters [f, g, g'] := by
    rintro g g' hg hg'
    rw [hbefore] at hg hg'
    simpa [Still] using ⟨hf, hg, hg'⟩
  cases hmoved : r.moved with
  | none =>
      have hle : ledger.counters ≤ ledger.smallRotation.counters :=
        ⟨Nat.le_refl _, Nat.le_refl _, Nat.le_succ _, Nat.le_refl _⟩
      rw [Rotation.frames, hmoved]
      exact .of_still (hstill _ _ ⟨rfl, rfl⟩ ⟨rfl, rfl⟩) ⟨hafter, rfl⟩ hinorder hle rfl rfl
  | some moved =>
      obtain ⟨b, hb, hblanked⟩ := hbetween (by rw [hmoved]; rfl)
      replace hblanked := hblanked.rotation hinorder hdropped
      have htransfer : ∀ g ∈ r.transferFrames moved ledger.bigRotation.counters,
          (∃ b : Node Key, g.picture = b.picture ∧ Blanked ledger.proposedId m b) ∧
            g.counters = ledger.bigRotation.counters := by
        rw [Rotation.transferFrames, List.forall_mem_cons, List.forall_mem_singleton]
        exact ⟨⟨⟨b, hb, hblanked⟩, rfl⟩, ⟨b, hb, hblanked⟩, rfl⟩
      rw [Rotation.frames, hmoved]
      exact .of_transfer (hstill _ _ ⟨rfl, rfl⟩ ⟨rfl, rfl⟩) (by simp) ⟨hafter, rfl⟩ htransfer rfl
        hinorder hlen

end Still

namespace Seam

variable {n : Node Key} {s t : Seam} {i slot : Nat}

/-- A seam that was opened closes to the node. -/
theorem close_of_seam? (h : n.seam? i = some s) :
    s.close = n ∧ s.childrenBefore.length = s.keysBefore.length := by
  obtain ⟨id, keys, children⟩ := n
  rw [Node.seam?] at h
  split at h
  · rename_i separator keysAfter left right childrenAfter hkeys hchildren
    obtain rfl := Option.some.inj h
    constructor
    · simp only [close, ← hkeys, ← hchildren, List.take_append_drop]
    · have hk := congrArg List.length hkeys
      have hc := congrArg List.length hchildren
      simp only [List.length_drop, List.length_cons] at hk hc
      simp only [List.length_take]
      omega
  · cases h

/-- A blank and an empty node in a seam are in the node that it closes to. -/
theorem blanked_close {id : Nat} {b : Seam}
    (haround : b = { s with separator := b.separator, left := b.left, right := b.right })
    (hlen : s.childrenBefore.length = s.keysBefore.length)
    (hkeys : (b.left.inorder ++ b.separator :: b.right.inorder).Perm
      (s.left.inorder ++ s.separator :: s.right.inorder ++ [.text blankLabel]))
    (hids : (b.left.ids ++ b.right.ids).Perm (s.left.ids ++ s.right.ids ++ [id]))
    (hplace : ⟨id, [], []⟩ ∈ b.left.preorder ∨ ⟨id, [], []⟩ ∈ b.right.preorder) :
    Blanked id s.close b.close := by
  obtain ⟨i, before, separator, after, cb, left, right, ca⟩ := b
  simp only [mk.injEq] at haround
  obtain ⟨rfl, rfl, -, rfl, rfl, -, -, rfl⟩ := haround
  refine ⟨?_, ?_, ?_⟩
  · have hb := inorder_close (s := ⟨s.id, s.keysBefore, separator, s.keysAfter, s.childrenBefore,
      left, right, s.childrenAfter⟩) hlen
    rw [hb, inorder_close hlen]
    exact Node.perm_around hkeys _ _
  · have hwhole := Node.perm_around hids (s.id :: s.childrenBefore.flatMap Node.ids)
      (s.childrenAfter.flatMap Node.ids)
    simpa [close, Node.ids_mk] using hwhole
  · rcases hplace with hplace | hplace
    · exact Node.mem_preorder_of_mem_children (c := left) (by simp [close]) hplace
    · exact Node.mem_preorder_of_mem_children (c := right) (by simp [close]) hplace

/-- An empty node holds no keys, and neither does a node without keys above it. -/
theorem inorder_above_empty (i id : Nat) : (⟨i, [], [⟨id, [], []⟩]⟩ : Node Key).inorder = [] := by
  simp [Node.inorder_mk]

/-- A grandchild moves along exactly when the children of the seam are inner nodes. -/
theorem isSome_moved (s : Seam) (slot : Nat) (result : Seam) (ledger : Ledger) :
    (s.rightRotation slot result ledger).moved.isSome = !s.left.isLeaf ∧
      (s.leftRotation slot result ledger).moved.isSome = !s.right.isLeaf := by
  constructor
  · rw [Bool.eq_iff_iff]
    simp [rightRotation, Node.isLeaf]
  · cases hchildren : s.right.children <;> simp [leftRotation, Node.isLeaf, hchildren]

theorem children_ne_nil {c d : Node Key} (hc : c.Balanced capacity h) (hd : d.Balanced capacity h)
    (hne : c.children ≠ []) : d.children ≠ [] := by
  rw [← List.isEmpty_eq_false_iff, hc.isEmpty_eq] at hne
  rw [← List.isEmpty_eq_false_iff, hd.isEmpty_eq, hne]

section Ends

variable {i : Nat} {keys : List Key} {x : Key}

/-- The last key of a balanced node comes off together with its last child. -/
theorem balanced_dropLast {children : List (Node Key)}
    (hn : Node.Balanced capacity h ⟨i, keys ++ [x], children⟩) (j : Nat) :
    Node.Balanced capacity h ⟨i, keys, children.dropLast⟩ ∧
      Node.Balanced capacity h ⟨j, [], children.getLast?.toList⟩ ∧
      children.dropLast ++ children.getLast?.toList = children := by
  cases h with
  | zero =>
      obtain rfl : children = [] := hn
      exact ⟨rfl, rfl, rfl⟩
  | succ h =>
      obtain ⟨hlen, hfilled⟩ := Node.balanced_succ.1 hn
      simp only [List.length_append, List.length_singleton] at hlen
      have hne : children ≠ [] := List.ne_nil_of_length_eq_add_one hlen
      rw [List.getLast?_eq_some_getLast hne, Option.toList_some]
      refine ⟨⟨?_, fun c hc => hfilled c ((List.dropLast_sublist _).subset hc)⟩, ⟨rfl, ?_⟩,
        List.dropLast_concat_getLast hne⟩
      · rw [List.length_dropLast, hlen]
        rfl
      · intro c hc
        exact List.mem_singleton.1 hc ▸ hfilled _ (List.getLast_mem hne)

/-- The first key of a balanced node comes off together with its first child. -/
theorem balanced_tail {children : List (Node Key)}
    (hn : Node.Balanced capacity h ⟨i, x :: keys, children⟩) (j : Nat) :
    Node.Balanced capacity h ⟨i, keys, children.tail⟩ ∧
      Node.Balanced capacity h ⟨j, [], children.head?.toList⟩ ∧
      children.head?.toList ++ children.tail = children := by
  cases h with
  | zero =>
      obtain rfl : children = [] := hn
      exact ⟨rfl, rfl, rfl⟩
  | succ h =>
      obtain ⟨hlen, hfilled⟩ := Node.balanced_succ.1 hn
      obtain ⟨c, children, rfl⟩ := List.exists_cons_of_length_eq_add_one hlen
      refine ⟨⟨Nat.succ.inj hlen, fun d hd => hfilled d (List.mem_cons_of_mem _ hd)⟩,
        ⟨rfl, ?_⟩, rfl⟩
      intro d hd
      exact List.mem_singleton.1 hd ▸ hfilled c List.mem_cons_self

end Ends

/-- The last grandchild on the left before it moves. -/
theorem exists_blanked_right (hleft : s.left.Balanced capacity h)
    (hright : s.right.Balanced capacity h) (hlen : s.childrenBefore.length = s.keysBefore.length)
    (ht : s.rotateRight? = some t) (hinner : s.left.children ≠ []) :
    ∃ b : Node Key, (s.rightRotation slot t ledger).between = b.picture ∧
      Blanked ledger.proposedId s.close b := by
  have hds := children_ne_nil hleft hright hinner
  obtain ⟨id, before, separator, after, cb, ⟨i, ks, cs⟩, ⟨j, ls, ds⟩, ca⟩ := s
  obtain ⟨raised, hraised, rfl⟩ := Option.map_eq_some_iff.1 ht
  obtain ⟨keys, rfl⟩ : ∃ keys, ks = keys ++ [raised] := List.getLast?_eq_some_iff.1 hraised
  obtain ⟨hinit, hmid, hcs⟩ := balanced_dropLast hleft i
  have hjoin := fun k => hinit.inorder_join hmid i k
  rw [hcs] at hjoin
  have hplace := @Node.inorder_join _ [] ls [⟨ledger.proposedId, [], []⟩] ds (.inr ⟨rfl, hds⟩) j 0 j
    separator
  refine ⟨close ⟨id, before, raised, after, cb, ⟨i, keys ++ [.text blankLabel], cs⟩,
    ⟨j, separator :: ls, ⟨ledger.proposedId, [], []⟩ :: ds⟩, ca⟩, ?_,
    blanked_close rfl hlen ?_ ?_ (.inr ?_)⟩
  · simp [rightRotation, pictureWith, close, placeholder, Key.label]
  · simp only [List.nil_append, List.singleton_append, inorder_above_empty] at hplace
    simp only [hjoin, hplace]
    simp only [List.perm_iff_count, List.count_append, List.count_cons, List.count_nil]
    intro a
    omega
  · simp only [Node.ids_mk, List.flatMap_cons, List.flatMap_nil, List.perm_iff_count,
      List.count_append, List.count_cons, List.count_nil]
    intro a
    omega
  · simp [Node.preorder_mk]

/-- The first grandchild on the right before it moves. -/
theorem exists_blanked_left (hleft : s.left.Balanced capacity h)
    (hright : s.right.Balanced capacity h) (hlen : s.childrenBefore.length = s.keysBefore.length)
    (ht : s.rotateLeft? = some t) (hinner : s.right.children ≠ []) :
    ∃ b : Node Key, (s.leftRotation slot t ledger).between = b.picture ∧
      Blanked ledger.proposedId s.close b := by
  have hcs := children_ne_nil hright hleft hinner
  obtain ⟨id, before, separator, after, cb, ⟨i, ks, cs⟩, ⟨j, ls, ds⟩, ca⟩ := s
  obtain ⟨raised, hraised, rfl⟩ := Option.map_eq_some_iff.1 ht
  obtain ⟨keys, rfl⟩ : ∃ keys, ls = raised :: keys := List.head?_eq_some_iff.1 hraised
  obtain ⟨hrest, hmid, hds⟩ := balanced_tail hright j
  have hjoin := fun k => hmid.inorder_join hrest j k
  rw [hds] at hjoin
  have hwide : cs.length = ks.length + 1 := by
    cases h with
    | zero => exact absurd hleft hcs
    | succ h => exact (Node.balanced_succ.1 hleft).1
  have hplace := @Node.inorder_join _ ks [] cs [⟨ledger.proposedId, [], []⟩]
    (.inr ⟨hwide, by simp⟩) i i 0 separator
  refine ⟨close ⟨id, before, raised, after, cb, ⟨i, ks ++ [separator],
    cs ++ [⟨ledger.proposedId, [], []⟩]⟩, ⟨j, .text blankLabel :: keys, ds⟩, ca⟩, ?_,
    blanked_close rfl hlen ?_ ?_ (.inl ?_)⟩
  · simp [leftRotation, pictureWith, close, placeholder, Key.label]
  · simp only [List.nil_append] at hjoin
    simp only [inorder_above_empty] at hplace
    simp only [hjoin, hplace]
    simp only [List.perm_iff_count, List.count_append, List.count_cons, List.count_nil]
    intro a
    omega
  · simp only [Node.ids_mk, List.flatMap_append, List.flatMap_cons, List.flatMap_nil,
      List.perm_iff_count, List.count_append, List.count_cons, List.count_nil]
    intro a
    omega
  · simp [Node.preorder_mk]

end Seam

namespace Node

/-! ## Repairs -/

section Repair

variable {n m c : Node Key} {minimum i : Nat}

/-- Nothing is shown of a child with enough keys. -/
theorem repairFrames_of_le (hchild : n.children[i]? = some c) (hc : minimum ≤ c.keys.length)
    (ledger : Ledger) : n.repairFrames minimum i ledger = [] := by
  simp [repairFrames, repairFor, hchild, hc]

theorem repairFrames_of_plan {plan : Repair} (hplan : n.repairFor minimum i = .ok plan)
    (hkeep : plan ≠ .keep) (hchild : n.children[i]? = some c) (ledger : Ledger) :
    n.repairFrames minimum i ledger =
      ⟨n.picture, Highlight.none.node c.id true "Underflow", ledger.counters⟩ ::
        n.planFrames i ledger plan := by
  rw [repairFrames, hplan, hchild]
  cases plan with
  | keep => exact absurd rfl hkeep
  | _ => rfl

theorem elim_eq_ok_iff {ε α : Type} {x : Option α} {e : ε} {a : α} :
    (x.elim (.error e) .ok : Except ε α) = .ok a ↔ x = some a := by
  cases x <;> simp

/-- What is done at a seam is done at the node opened there. -/
theorem exists_seam {α : Type} {a : α} {f : Seam → Except Corruption α}
    (h : (n.seam i >>= f) = .ok a) :
    ∃ s, n.seam? i = some s ∧ s.close = n ∧
      s.childrenBefore.length = s.keysBefore.length ∧ f s = .ok a := by
  obtain ⟨s, hs, hf⟩ := bind_eq_ok_iff.1 h
  have hseam : n.seam? i = some s := elim_eq_ok_iff.1 hs
  obtain ⟨hclose, hlen⟩ := Seam.close_of_seam? hseam
  exact ⟨s, hseam, hclose, hlen, hf⟩

/-- A merge is announced by two frames. -/
theorem settles_merge {s : Seam} {f g : Frame} (hf : f.picture = s.close.picture)
    (hfc : f.counters = ledger.counters) (hg : g.picture = s.close.picture)
    (hgc : g.counters = ledger.counters) (hinorder : s.merge.inorder = s.close.inorder)
    (slot : Nat) :
    Settles ledger s.close s.merge ledger.merge (f :: g :: s.mergeFrames slot ledger) := by
  have hle : ledger.counters ≤ ledger.merge.counters :=
    ⟨Nat.le_refl _, Nat.le_succ _, Nat.le_refl _, Nat.le_refl _⟩
  have hstill : ∀ e : Frame, e.picture = s.close.picture ∧ e.counters = ledger.counters →
      Still s.close.picture ledger.counters [f, g, e] := by
    intro e he
    simpa [Still] using ⟨⟨hf, hfc⟩, ⟨hg, hgc⟩, he⟩
  exact .of_still (hstill _ ⟨rfl, rfl⟩) ⟨rfl, rfl⟩ hinorder hle rfl rfl

/-- **The frames of a repair.** They show the keys of the node, which the repair keeps, but for
the transfer in a big rotation. Where nothing is repaired nothing is shown. -/
theorem settles_repair (hall : ∀ d ∈ n.children, d.Balanced capacity h)
    (hchild : n.children[i]? = some c) (hrepair : n.repair minimum i ledger = .ok (m, l))
    (hinorder : m.inorder = n.inorder) (hdropped : Dropped ledger l n.ids m.ids) :
    Settles ledger n m l (n.repairFrames minimum i ledger) ∧
      (n.repairFrames minimum i ledger = [] → m = n ∧ l = ledger) := by
  obtain ⟨plan, hplan, hdone⟩ := bind_eq_ok_iff.1 hrepair
  by_cases hkeep : plan = .keep
  · subst hkeep
    obtain ⟨rfl, rfl⟩ := Prod.mk.inj (Except.ok.inj hdone)
    have hnil : n.repairFrames minimum i ledger = [] := by
      rw [repairFrames, hplan]
    rw [hnil]
    exact ⟨.nil ledger n, fun _ => ⟨rfl, rfl⟩⟩
  rw [repairFrames_of_plan hplan hkeep hchild]
  refine ⟨?_, nofun⟩
  cases plan with
  | keep => exact absurd rfl hkeep
  | mergeLeft =>
      obtain ⟨s, hs, rfl, -, hdone⟩ := exists_seam hdone
      obtain ⟨rfl, rfl⟩ := Prod.mk.inj (Except.ok.inj hdone)
      rw [planFrames, hs]
      exact settles_merge rfl rfl rfl rfl hinorder _
  | mergeRight =>
      obtain ⟨s, hs, rfl, -, hdone⟩ := exists_seam hdone
      obtain ⟨rfl, rfl⟩ := Prod.mk.inj (Except.ok.inj hdone)
      rw [planFrames, hs]
      exact settles_merge rfl rfl rfl rfl hinorder _
  | rotateRight =>
      obtain ⟨s, hs, rfl, hlen, hdone⟩ := exists_seam hdone
      obtain ⟨t, ht, hdone⟩ := bind_eq_ok_iff.1 hdone
      obtain ⟨rfl, rfl⟩ := Prod.mk.inj (Except.ok.inj hdone)
      rw [elim_eq_ok_iff] at ht
      have hmoved := (s.isSome_moved (i - 1) t ledger).1
      rw [planFrames, hs, Option.elim_some, ht, Option.elim_some, ← hmoved]
      rw [← hmoved] at hdropped
      refine .rotation ⟨rfl, rfl⟩ rfl rfl hinorder ?_ hdropped fun hsome => ?_
      · obtain ⟨raised, -, rfl⟩ := Option.map_eq_some_iff.1 ht
        simp [Seam.close]
      · rw [hmoved] at hsome
        exact s.exists_blanked_right (hall _ (by simp [Seam.close]))
          (hall _ (by simp [Seam.close])) hlen ht (by simpa [isLeaf] using hsome)
  | rotateLeft =>
      obtain ⟨s, hs, rfl, hlen, hdone⟩ := exists_seam hdone
      obtain ⟨t, ht, hdone⟩ := bind_eq_ok_iff.1 hdone
      obtain ⟨rfl, rfl⟩ := Prod.mk.inj (Except.ok.inj hdone)
      rw [elim_eq_ok_iff] at ht
      have hmoved := (s.isSome_moved i t ledger).2
      rw [planFrames, hs, Option.elim_some, ht, Option.elim_some, ← hmoved]
      rw [← hmoved] at hdropped
      refine .rotation ⟨rfl, rfl⟩ rfl rfl hinorder ?_ hdropped fun hsome => ?_
      · obtain ⟨raised, -, rfl⟩ := Option.map_eq_some_iff.1 ht
        simp [Seam.close]
      · rw [hmoved] at hsome
        exact s.exists_blanked_left (hall _ (by simp [Seam.close]))
          (hall _ (by simp [Seam.close])) hlen ht (by simpa [isLeaf] using hsome)

end Repair

end Node

end TracedTree
