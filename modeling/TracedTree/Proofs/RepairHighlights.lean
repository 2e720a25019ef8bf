import TracedTree.Proofs.Highlights
import TracedTree.Proofs.RepairFrames

/-!
# Highlights of a repair

What the frames of a repair emphasize is shown. A rotation names its slots before it happens and
uses them in pictures of three states, so `Rotation.ShownIn` says how many slots the child and its
neighbour must show; each picture has its own numbers. The picture in the middle of a big rotation
shows a node that is not live, whose identity is newer than any that was handed out.

## Main definitions

* `Rotation.ShownIn r last n p held given`: the picture shows the nodes of a rotation below `n`, the
  child with at least `held` slots and the neighbour with at least `given`.

## Main statements

* `Node.grounded_repair`: the frames of a repair are grounded.
-/

namespace TracedTree

variable {capacity h last : Nat} {ledger l : Ledger} {n m : Node Key}

/-- What is left after merges is old. -/
theorem Dropped.renewed {ids rest : List Nat} (hdropped : Dropped ledger l ids rest)
    (hids : ids.Nodup) : Renewed last ids rest := by
  obtain ⟨dropped, hperm, -⟩ := hdropped
  refine ⟨(List.nodup_append.1 (hperm.nodup_iff.1 hids)).1, ?_⟩
  intro id hid
  exact .inl (hperm.mem_iff.2 (List.mem_append_left _ hid))

theorem Dropped.issued {ids rest : List Nat} (hdropped : Dropped ledger l ids rest)
    (hids : Issued ledger.lastId ids) : Issued l.lastId rest := by
  obtain ⟨dropped, hperm, hlast, -⟩ := hdropped
  refine ⟨(List.nodup_append.1 (hperm.nodup_iff.1 hids.nodup)).1, ?_⟩
  intro id hid
  rw [hlast]
  exact hids.le id (hperm.mem_iff.2 (List.mem_append_left _ hid))

/-- An empty node is shown with a new identity. -/
theorem Blanked.renewed {id : Nat} {b : Node Key} (hb : Blanked id n b) (hn : Issued last n.ids)
    (hid : last < id) : Renewed last n.ids b.ids := by
  constructor
  · rw [hb.ids.nodup_iff, List.nodup_append]
    refine ⟨hn.nodup, by simp, ?_⟩
    intro i hi j hj
    have := hn.le i hi
    rw [List.mem_singleton] at hj
    omega
  · intro i hi
    rcases List.mem_append.1 (hb.ids.mem_iff.1 hi) with hi | hi
    · exact .inl hi
    · rw [List.mem_singleton.1 hi]
      exact .inr hid

/-! ## Rotations -/

namespace Rotation

/-- A picture of identities old and new shows the parent with the slot of the rotation, the child
and its neighbour with numbers of slots. -/
structure ShownIn (r : Rotation) (last : Nat) (n : Node Key) (p : Picture) (held given : Nat) :
    Prop where
  ids : Renewed last n.ids p.ids
  parent : ∃ slots, p.Displays r.parentId slots ∧ r.slot < slots
  child : ∃ slots, p.Displays r.childId slots ∧ held ≤ slots
  sibling : ∃ slots, p.Displays r.siblingId slots ∧ given ≤ slots

variable {r : Rotation} {p moved : Picture} {held given : Nat}

theorem ShownIn.both (hp : r.ShownIn last n p held given) (message : String) :
    (r.both message).Refers p := by
  obtain ⟨childSlots, hchild, -⟩ := hp.child
  obtain ⟨siblingSlots, hsibling, -⟩ := hp.sibling
  exact ((Highlight.refers_none p).node hp.ids.nodup hchild true message).node hp.ids.nodup
    hsibling true ""

/-- The key on its way through the slot of the parent into that of the child. -/
theorem ShownIn.arrived (hp : r.ShownIn last n p (r.childSlot + 1) given) :
    (((r.both "").index r.parentId r.slot "").index r.childId r.childSlot "").Refers p := by
  obtain ⟨parentSlots, hparent, hslot⟩ := hp.parent
  obtain ⟨childSlots, hchild, hheld⟩ := hp.child
  exact ((hp.both "").index hp.ids.nodup hparent hslot "").index hp.ids.nodup hchild hheld ""

theorem refers_allSlots {h : Highlight} (hp : p.ids.Nodup) (hh : h.Refers p)
    (hmoved : moved ∈ p.preorder) : (h.slotsBelow moved (allSlots moved)).Refers p := by
  refine hh.slotsBelow hp hmoved ?_
  intro i hi
  exact List.mem_range.1 hi

/-- The transfer of a grandchild, which the picture shows. -/
theorem grounded_transferFrames
    (hbetween : r.ShownIn last n r.between (r.childSlot + 1) given)
    (hgap : r.childGap ≤ r.childSlot + 1) (hmoved : moved ∈ r.between.preorder) (c : Counters) :
    Grounded last n (r.transferFrames moved c) := by
  have hp := hbetween.ids.nodup
  obtain ⟨childSlots, hchild, hheld⟩ := hbetween.child
  rw [transferFrames, Grounded, List.forall_mem_cons, List.forall_mem_singleton]
  refine ⟨⟨hbetween.ids, hbetween.arrived⟩, hbetween.ids, refers_allSlots hp ?_ hmoved⟩
  exact ((hbetween.both "").node hp (Node.displays_of_mem hmoved) _ _).separator hp hchild
    (Nat.le_trans hgap hheld) _

/-- The frames of a rotation, by what its three pictures show. -/
theorem grounded_frames (hbefore : r.ShownIn last n r.before 0 (r.siblingSlot + 1))
    (hafter : r.ShownIn last n r.after (r.childSlot + 1) 0)
    (hgap : r.childGap ≤ r.childSlot + 1)
    (hmoved : ∀ moved ∈ r.moved, r.ShownIn last n r.between (r.childSlot + 1) 0 ∧
      moved ∈ r.between.preorder ∧ moved ∈ r.after.preorder) (start finish : Counters) :
    Grounded last n (r.frames start finish) := by
  obtain ⟨parentSlots, hparent, hslot⟩ := hbefore.parent
  obtain ⟨siblingSlots, hsibling, hgiven⟩ := hbefore.sibling
  have hstart : ∀ message : String, Grounded last n
      [⟨r.before, r.both message, start⟩,
        ⟨r.before, ((r.both "").index r.parentId r.slot ("rotate " ++ r.direction)).index
          r.siblingId r.siblingSlot ("rotate " ++ r.direction), start⟩] := by
    intro message
    rw [Grounded, List.forall_mem_cons, List.forall_mem_singleton]
    exact ⟨⟨hbefore.ids, hbefore.both message⟩, hbefore.ids,
      ((hbefore.both "").index hbefore.ids.nodup hparent hslot _).index hbefore.ids.nodup hsibling
        hgiven _⟩
  cases hcase : r.moved with
  | none =>
      rw [frames, hcase]
      exact (hstart _).append (List.forall_mem_singleton.2 ⟨hafter.ids, hafter.arrived⟩)
  | some moved =>
      obtain ⟨hbetween, hin, hout⟩ := hmoved moved hcase
      have hresult := refers_allSlots hafter.ids.nodup (hafter.both "") hout
      rw [frames, hcase]
      exact (hstart _).append ((grounded_transferFrames hbetween hgap hin finish).append
        (List.forall_mem_singleton.2 ⟨hafter.ids, hresult⟩))

end Rotation

namespace Seam

variable {s t : Seam} {i slot : Nat}

theorem lt_of_seam? (h : n.seam? i = some s) : i < n.keys.length := by
  rw [Node.seam?] at h
  split at h
  · rename_i hkeys _
    have := congrArg List.length hkeys
    rw [List.length_drop, List.length_cons] at this
    omega
  · cases h

/-- A picture of a seam shows its parent and both children. -/
theorem displays_pictureWith (s : Seam) (left : Picture) (label : String) (right : Picture) :
    (s.pictureWith left label right).Displays s.id s.close.keys.length ∧
      left ∈ (s.pictureWith left label right).preorder ∧
      right ∈ (s.pictureWith left label right).preorder := by
  have hself := Node.mem_preorder_self (s.pictureWith left label right)
  refine ⟨?_, Node.mem_preorder_child hself (by simp [pictureWith]),
    Node.mem_preorder_child hself (by simp [pictureWith])⟩
  simpa [pictureWith, close] using Node.displays_of_mem hself

theorem picture_eq (haround : t = { s with
    separator := t.separator, left := t.left, right := t.right }) :
    t.picture = s.pictureWith t.left.picture t.separator.label t.right.picture := by
  rw [haround]
  simp [picture, close, pictureWith]

section Rotations

variable {p left right : Picture} {label : String} {held given : Nat}

theorem shownIn_right (hp : p = s.pictureWith left label right) (hids : Renewed last n.ids p.ids)
    (hslot : slot < s.close.keys.length) (hleft : left.id = s.left.id ∧ given ≤ left.keys.length)
    (hright : right.id = s.right.id ∧ held ≤ right.keys.length) :
    (s.rightRotation slot t ledger).ShownIn last n p held given := by
  subst hp
  obtain ⟨hparent, hl, hr⟩ := s.displays_pictureWith left label right
  have hl := Node.displays_of_mem hl
  have hr := Node.displays_of_mem hr
  rw [hleft.1] at hl
  rw [hright.1] at hr
  exact ⟨hids, ⟨_, hparent, hslot⟩, ⟨_, hr, hright.2⟩, ⟨_, hl, hleft.2⟩⟩

theorem shownIn_left (hp : p = s.pictureWith left label right) (hids : Renewed last n.ids p.ids)
    (hslot : slot < s.close.keys.length) (hleft : left.id = s.left.id ∧ held ≤ left.keys.length)
    (hright : right.id = s.right.id ∧ given ≤ right.keys.length) :
    (s.leftRotation slot t ledger).ShownIn last n p held given := by
  subst hp
  obtain ⟨hparent, hl, hr⟩ := s.displays_pictureWith left label right
  have hl := Node.displays_of_mem hl
  have hr := Node.displays_of_mem hr
  rw [hleft.1] at hl
  rw [hright.1] at hr
  exact ⟨hids, ⟨_, hparent, hslot⟩, ⟨_, hl, hleft.2⟩, ⟨_, hr, hright.2⟩⟩

/-- A rotation to the right, which takes the last key of the left child. -/
theorem grounded_rightRotation (hleft : s.left.Balanced capacity h)
    (hright : s.right.Balanced capacity h) (hlen : s.childrenBefore.length = s.keysBefore.length)
    (ht : s.rotateRight? = some t) (hslot : slot < s.close.keys.length)
    (hids : Issued ledger.lastId s.close.ids)
    (hafter : Renewed ledger.lastId s.close.ids t.close.ids) (start finish : Counters) :
    Grounded ledger.lastId s.close
      ((s.rightRotation slot t ledger).frames start finish) := by
  have hblanked : s.left.children ≠ [] →
      ∃ b : Node Key, (s.rightRotation slot t ledger).between = b.picture ∧
        Blanked ledger.proposedId s.close b := exists_blanked_right hleft hright hlen ht
  obtain ⟨raised, hraised, rfl⟩ := Option.map_eq_some_iff.1 ht
  have hgiven : s.left.keys.length - 1 + 1 ≤ s.left.picture.keys.length := by
    have := List.length_pos_of_mem (List.mem_of_getLast? hraised)
    simp only [Node.picture, Node.keys_map, List.length_map]
    omega
  refine Rotation.grounded_frames ?before ?after (Nat.zero_le _) ?moved start finish
  case before =>
    exact shownIn_right (picture_eq rfl) (Renewed.refl hids.nodup).picture hslot
      ⟨Node.id_map .., hgiven⟩ ⟨Node.id_map .., Nat.zero_le _⟩
  case after =>
    exact shownIn_right (picture_eq rfl) hafter.picture hslot
      ⟨Node.id_map .., Nat.zero_le _⟩ ⟨Node.id_map .., by simp [rightRotation]⟩
  case moved =>
    intro moved hmoved
    obtain ⟨d, hd, rfl⟩ := Option.map_eq_some_iff.1 hmoved
    have hmem : d ∈ s.left.children := List.mem_of_getLast? hd
    obtain ⟨b, hb, hnew⟩ := hblanked (List.ne_nil_of_mem hmem)
    have hbetween := (hnew.renewed hids (Nat.lt_add_of_pos_right (by decide))).picture
    rw [← hb] at hbetween
    refine ⟨shownIn_right rfl hbetween hslot ⟨rfl, Nat.zero_le _⟩ ⟨rfl, by simp [rightRotation]⟩,
      ?_, ?_⟩
    · exact Node.mem_preorder_child (displays_pictureWith s _ _ _).2.1 (List.mem_map_of_mem hmem)
    · change _ ∈ (picture _).preorder
      rw [picture_eq (s := s) rfl]
      exact Node.mem_preorder_child (displays_pictureWith s _ _ _).2.2 (by simp [hd])

/-- A rotation to the left, which takes the first key of the right child. -/
theorem grounded_leftRotation (hleft : s.left.Balanced capacity h)
    (hright : s.right.Balanced capacity h) (hlen : s.childrenBefore.length = s.keysBefore.length)
    (ht : s.rotateLeft? = some t) (hslot : slot < s.close.keys.length)
    (hids : Issued ledger.lastId s.close.ids)
    (hafter : Renewed ledger.lastId s.close.ids t.close.ids) (start finish : Counters) :
    Grounded ledger.lastId s.close
      ((s.leftRotation slot t ledger).frames start finish) := by
  have hblanked : s.right.children ≠ [] →
      ∃ b : Node Key, (s.leftRotation slot t ledger).between = b.picture ∧
        Blanked ledger.proposedId s.close b := exists_blanked_left hleft hright hlen ht
  obtain ⟨raised, hraised, rfl⟩ := Option.map_eq_some_iff.1 ht
  have hgiven : 0 + 1 ≤ s.right.picture.keys.length := by
    have := List.length_pos_of_mem (List.mem_of_head? hraised)
    simp only [Node.picture, Node.keys_map, List.length_map]
    omega
  have hgap : s.left.children.length ≤ s.left.keys.length + 1 := by
    cases h with
    | zero => simp [Node.balanced_zero.1 hleft]
    | succ h => exact Nat.le_of_eq (Node.balanced_succ.1 hleft).1
  refine Rotation.grounded_frames ?before ?after hgap ?moved start finish
  case before =>
    exact shownIn_left (picture_eq rfl) (Renewed.refl hids.nodup).picture hslot
      ⟨Node.id_map .., Nat.zero_le _⟩ ⟨Node.id_map .., hgiven⟩
  case after =>
    exact shownIn_left (picture_eq rfl) hafter.picture hslot
      ⟨Node.id_map .., by simp [leftRotation]⟩ ⟨Node.id_map .., Nat.zero_le _⟩
  case moved =>
    intro moved hmoved
    obtain ⟨d, hd, rfl⟩ := Option.map_eq_some_iff.1 hmoved
    have hmem : d ∈ s.right.children := List.mem_of_head? hd
    obtain ⟨b, hb, hnew⟩ := hblanked (List.ne_nil_of_mem hmem)
    have hbetween := (hnew.renewed hids (Nat.lt_add_of_pos_right (by decide))).picture
    rw [← hb] at hbetween
    refine ⟨shownIn_left rfl hbetween hslot ⟨rfl, by simp [leftRotation]⟩ ⟨rfl, Nat.zero_le _⟩,
      ?_, ?_⟩
    · exact Node.mem_preorder_child (displays_pictureWith s _ _ _).2.2 (List.mem_map_of_mem hmem)
    · change _ ∈ (picture _).preorder
      rw [picture_eq (s := s) rfl]
      exact Node.mem_preorder_child (displays_pictureWith s _ _ _).2.1 (by simp [hd])

end Rotations

/-- A merge shows the children with the key between them, and then the joined child. -/
theorem grounded_mergeFrames (hslot : slot < s.close.keys.length)
    (hids : Renewed last n.ids s.close.ids) (hafter : Renewed last n.ids s.merge.ids) :
    Grounded last n (s.mergeFrames slot ledger) := by
  have hself := Node.mem_preorder_self s.close
  have hleft := Node.displays_picture
    (Node.mem_preorder_child (c := s.left) hself (by simp [close]))
  have hright := Node.displays_picture
    (Node.mem_preorder_child (c := s.right) hself (by simp [close]))
  have hjoined := Node.displays_picture
    (Node.mem_preorder_child (c := s.joined) (Node.mem_preorder_self s.merge) (by simp [merge]))
  have hlast : s.left.keys.length < s.joined.keys.length := by simp [joined]
  have hp := hids.picture.nodup
  have hp' := hafter.picture.nodup
  have hbefore := (((Highlight.refers_none _).index hp (Node.displays_picture hself) hslot
    "middle Key").node hp hleft true "").node hp hright true ""
  have hmerged := ((Highlight.refers_none _).node hp' hjoined true "Merged node").index hp' hjoined
    hlast ""
  rw [mergeFrames, Grounded, List.forall_mem_cons, List.forall_mem_singleton]
  exact ⟨⟨hids.picture, hbefore⟩, hafter.picture, hmerged⟩

end Seam

namespace Node

/-! ## Repairs -/

section Repair

variable {c d : Node Key} {minimum i : Nat}

/-- A node with emphasis on a child. -/
theorem grounded_child (hids : Renewed last m.ids n.ids) (hc : c ∈ n.children) (full : Bool)
    (message : String) (counters : Counters) :
    Grounded last m [⟨n.picture, Highlight.none.node c.id full message, counters⟩] := by
  have hshown := displays_picture (mem_preorder_child (mem_preorder_self n) hc)
  refine grounded_of_refers hids (List.forall_mem_singleton.2 ⟨rfl, ?_⟩)
  exact (Highlight.refers_none _).node hids.picture.nodup hshown full message

theorem grounded_mergeNotice (hids : Renewed last m.ids n.ids) (hc : c ∈ n.children)
    (hd : d ∈ n.children) (side : String) :
    Grounded last m [n.mergeNotice c.id d.id side ledger] := by
  have hp := hids.picture.nodup
  have hshown := displays_picture (mem_preorder_child (mem_preorder_self n) hc)
  have hshown' := displays_picture (mem_preorder_child (mem_preorder_self n) hd)
  refine grounded_of_refers hids (List.forall_mem_singleton.2 ⟨rfl, ?_⟩)
  exact ((Highlight.refers_none _).node hp hshown _ _).node hp hshown' _ _

/-- **The frames of a repair** refer to what they show. -/
theorem grounded_repair (hall : ∀ d ∈ n.children, d.Balanced capacity h)
    (hchild : n.children[i]? = some c) (hrepair : n.repair minimum i ledger = .ok (m, l))
    (hdropped : Dropped ledger l n.ids m.ids) (hids : Issued ledger.lastId n.ids) :
    Grounded ledger.lastId n (n.repairFrames minimum i ledger) := by
  obtain ⟨plan, hplan, hdone⟩ := bind_eq_ok_iff.1 hrepair
  by_cases hkeep : plan = .keep
  · subst hkeep
    have hnil : n.repairFrames minimum i ledger = [] := by
      rw [repairFrames, hplan]
    rw [hnil]
    exact grounded_nil _ n
  have hself : Renewed ledger.lastId n.ids n.ids := .refl hids.nodup
  have hafter : Renewed ledger.lastId n.ids m.ids := hdropped.renewed hids.nodup
  rw [repairFrames_of_plan hplan hkeep hchild, ← List.singleton_append]
  refine (grounded_child hself (List.mem_of_getElem? hchild) true "Underflow" _).append ?_
  cases plan with
  | keep => exact absurd rfl hkeep
  | mergeLeft =>
      obtain ⟨s, hs, rfl, -, hdone⟩ := exists_seam hdone
      obtain ⟨rfl, rfl⟩ := Prod.mk.inj (Except.ok.inj hdone)
      rw [planFrames, hs]
      exact (grounded_mergeNotice hself (by simp [Seam.close]) (by simp [Seam.close]) _).append
        (Seam.grounded_mergeFrames (Seam.lt_of_seam? hs) hself hafter)
  | mergeRight =>
      obtain ⟨s, hs, rfl, -, hdone⟩ := exists_seam hdone
      obtain ⟨rfl, rfl⟩ := Prod.mk.inj (Except.ok.inj hdone)
      rw [planFrames, hs]
      exact (grounded_mergeNotice hself (by simp [Seam.close]) (by simp [Seam.close]) _).append
        (Seam.grounded_mergeFrames (Seam.lt_of_seam? hs) hself hafter)
  | rotateRight =>
      obtain ⟨s, hs, rfl, hlen, hdone⟩ := exists_seam hdone
      obtain ⟨t, ht, hdone⟩ := bind_eq_ok_iff.1 hdone
      obtain ⟨rfl, rfl⟩ := Prod.mk.inj (Except.ok.inj hdone)
      rw [elim_eq_ok_iff] at ht
      rw [planFrames, hs, Option.elim_some, ht, Option.elim_some]
      exact Seam.grounded_rightRotation (hall _ (by simp [Seam.close]))
        (hall _ (by simp [Seam.close])) hlen ht (Seam.lt_of_seam? hs) hids hafter _ _
  | rotateLeft =>
      obtain ⟨s, hs, rfl, hlen, hdone⟩ := exists_seam hdone
      obtain ⟨t, ht, hdone⟩ := bind_eq_ok_iff.1 hdone
      obtain ⟨rfl, rfl⟩ := Prod.mk.inj (Except.ok.inj hdone)
      rw [elim_eq_ok_iff] at ht
      rw [planFrames, hs, Option.elim_some, ht, Option.elim_some]
      exact Seam.grounded_leftRotation (hall _ (by simp [Seam.close]))
        (hall _ (by simp [Seam.close])) hlen ht (Seam.lt_of_seam? hs) hids hafter _ _

end Repair

end Node

end TracedTree
