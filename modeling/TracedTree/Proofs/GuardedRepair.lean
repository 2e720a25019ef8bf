import TracedTree.Proofs.RepairHighlights
import TracedTree.Proofs.Splicing

/-!
# A guarded repair never fails

Every repair acts on a seam, whose two children and the key between them are found at their
positions. Each step of a guarded repair changes one of the three, so in the focus of the parent it
goes from one seam to another. A merge and both rotations arrive where the repairs of a seam do, and
on the way they show their frames.

## Main definitions

* `Seam.closeWith s left k right`: the seam closed with other children and another key between them.
* `Guarded.transferred`: what a big rotation shows before the grandchild moves.

## Main statements

* `Guarded.leads_rebalance`: a guarded repair does what the repair does, where that succeeds on a
  child that lacks at most one key.
-/

namespace TracedTree

namespace Seam

/-- The node that a seam closes to with other children and another key between them. -/
def closeWith (s : Seam) (left : Node Key) (k : Key) (right : Node Key) : Node Key :=
  ⟨s.id, s.keysBefore ++ k :: s.keysAfter, s.childrenBefore ++ left :: right :: s.childrenAfter⟩

theorem picture_closeWith (s : Seam) (left : Node Key) (k : Key) (right : Node Key) :
    (s.closeWith left k right).picture = s.pictureWith left.picture k.label right.picture := by
  simp [closeWith, pictureWith, Node.picture_mk]

/-- No identity is gained or lost where the two children have the same ones as before. -/
theorem perm_ids_closeWith (s : Seam) (k : Key) {left right : Node Key}
    (h : (left.ids ++ right.ids).Perm (s.left.ids ++ s.right.ids)) :
    (s.closeWith left k right).ids.Perm s.close.ids := by
  rw [closeWith, close, Node.ids_mk, Node.ids_mk]
  simp only [List.flatMap_append, List.flatMap_cons]
  refine (List.Perm.append_left _ ?_).cons s.id
  rw [← List.append_assoc, ← List.append_assoc]
  exact h.append_right _

/-- The keys before a seam are those before the position at which it was opened. -/
theorem length_of_seam? {n : Node Key} {s : Seam} {i : Nat} (h : n.seam? i = some s) :
    s.keysBefore.length = i := by
  have hlt := lt_of_seam? h
  rw [Node.seam?] at h
  split at h
  · obtain rfl := Option.some.inj h
    exact List.length_take_of_le (Nat.le_of_lt hlt)
  · cases h

/-- What is done at the seam at a position is done behind as many keys and children. -/
theorem exists_opened_at {α : Type} {n : Node Key} {i : Nat} {a : α}
    {f : Seam → Except Corruption α} (h : (n.seam i >>= f) = .ok a) :
    ∃ s, n.seam? i = some s ∧ s.close = n ∧ s.keysBefore.length = i ∧
      s.childrenBefore.length = i ∧ f s = .ok a := by
  obtain ⟨s, hs, hclose, hlen, hf⟩ := Node.exists_seam h
  have hkeys := length_of_seam? hs
  exact ⟨s, hs, hclose, hkeys, hlen.trans hkeys, hf⟩

end Seam

namespace Guarded

variable {D : Prop} {capacity slot : Nat} {ctx : List (Layer Key)} {l : Ledger} {s t : Seam}

/-! ## Steps at a seam -/

section Seam

variable {a b m : Node Key} {k : Key} {f : Node Key → Except Fault (Node Key)}

theorem mk_self (n : Node Key) : ⟨n.id, n.keys, n.children⟩ = n := by
  cases n
  rfl

theorem less_eq {i j : Nat} (h : j ≤ i) : less i j = .ok (i - j) := by
  simp [less, h]

theorem getElem?_left (h : s.childrenBefore.length = slot) :
    (s.closeWith a k b).children[slot]? = some a := by
  simp [Seam.closeWith, ← h]

theorem getElem?_right (h : s.childrenBefore.length = slot) :
    (s.closeWith a k b).children[slot + 1]? = some b := by
  simp [Seam.closeWith, ← h]

theorem entry_left (h : s.childrenBefore.length = slot) :
    entry (s.closeWith a k b).children slot = .ok a := entry_eq_ok (getElem?_left h)

theorem entry_right (h : s.childrenBefore.length = slot) :
    entry (s.closeWith a k b).children (slot + 1) = .ok b := entry_eq_ok (getElem?_right h)

theorem entry_separator (h : s.keysBefore.length = slot) :
    entry (s.closeWith a k b).keys slot = .ok k := by
  simp [entry, Seam.closeWith, ← h]

theorem leads_alterLeft (h : s.childrenBefore.length = slot) (hf : f a = .ok m) :
    Leads D capacity ctx (alterAt (slot :: pathOf ctx) f) (s.closeWith a k b) l (pure ())
      (s.closeWith m k b) l [] := by
  subst h
  exact leads_alterChild (u := ⟨s.id, s.keysBefore ++ k :: s.keysAfter, s.childrenBefore,
    b :: s.childrenAfter⟩) hf

theorem leads_alterRight (h : s.childrenBefore.length = slot) (hf : f b = .ok m) :
    Leads D capacity ctx (alterAt ((slot + 1) :: pathOf ctx) f) (s.closeWith a k b) l (pure ())
      (s.closeWith a k m) l [] := by
  let u : Layer Key := ⟨s.id, s.keysBefore ++ k :: s.keysAfter, s.childrenBefore ++ [a],
    s.childrenAfter⟩
  have hchild : Leads D capacity ctx (alterAt (u.left.length :: pathOf ctx) f) (u.close b) l
      (pure ()) (u.close m) l [] := leads_alterChild hf
  simpa [u, Layer.close, Seam.closeWith, h] using hchild

theorem leads_alterSeparator (h : s.keysBefore.length = slot) (k' : Key) :
    Leads D capacity ctx
      (alterAt (pathOf ctx) fun n => do return { n with keys := ← setAt n.keys slot k' })
      (s.closeWith a k b) l (pure ()) (s.closeWith a k' b) l [] := by
  refine leads_alterAt ?_
  simp [setAt, Seam.closeWith, ← h]

end Seam

/-! ## Merging -/

theorem leads_mergeChildren (hk : s.keysBefore.length = slot)
    (hc : s.childrenBefore.length = slot) :
    Leads D capacity ctx (mergeChildren (pathOf ctx) slot) s.close l (pure ()) s.merge l.merge
      (s.mergeFrames slot l) := by
  let u : Layer Key := ⟨s.id, s.keysBefore ++ s.keysAfter, s.childrenBefore, s.childrenAfter⟩
  have hremove : Leads D capacity ctx (alterAt (pathOf ctx) fun n => do
      return ⟨n.id, ← removeAt n.keys slot, ← removeAt n.children (slot + 1)⟩) s.close l (pure ())
      (u.close s.left) l [] := by
    refine leads_alterAt ?_
    have hkeys : removeAt s.close.keys slot = .ok (s.keysBefore ++ s.keysAfter) := by
      simp [removeAt, Seam.close, ← hk, List.eraseIdx_append_of_length_le]
    have hchildren : removeAt s.close.children (slot + 1) =
        .ok (s.childrenBefore ++ s.left :: s.childrenAfter) := by
      simp [removeAt, Seam.close, ← hc, List.eraseIdx_append_of_length_le]
    rw [hkeys, ok_bind, hchildren]
    rfl
  have hjoin : Leads D capacity ctx (alterAt (slot :: pathOf ctx) fun n => .ok
      ⟨n.id, n.keys ++ s.separator :: s.right.keys, n.children ++ s.right.children⟩)
      (u.close s.left) l (pure ()) s.merge l [] := by
    rw [← hc]
    exact leads_alterChild (u := u) (m := s.joined) rfl
  refine leads_nodeAt.next ?_
  refine (leads_lift (entry_left hc)).next ?_
  refine (leads_lift (entry_right hc)).next ?_
  refine (leads_whenRecording (leads_recordLive _)).bind ?_
  refine (leads_lift (entry_separator hk)).next ?_
  refine hremove.next ?_
  refine hjoin.next ?_
  refine (leads_account Ledger.merge).next ?_
  exact leads_whenRecording (leads_recordLive _)

/-! ## Rotating -/

section Rotate

/-- The frames that announce a rotation. -/
def announcement (r : Rotation) (sibling : Node Key) (c : Counters) : List Frame :=
  let size := if sibling.isLeaf then "Small" else "Big"
  [⟨r.before, r.both (size ++ " Rotation with " ++ r.side ++ " Sibling"), c⟩,
    ⟨r.before, ((r.both "").index r.parentId r.slot ("rotate " ++ r.direction)).index r.siblingId
      r.siblingSlot ("rotate " ++ r.direction), c⟩]

/-- The frame of the result of a rotation. -/
def result (r : Rotation) (c : Counters) : Frame :=
  ⟨r.after, r.moved.elim (((r.both "").index r.parentId r.slot "").index r.childId r.childSlot "")
    fun moved => (r.both "").slotsBelow moved (Rotation.allSlots moved), c⟩

theorem frames_eq (r : Rotation) {sibling : Node Key} (h : r.moved.isSome = !sibling.isLeaf)
    (start finish : Counters) :
    r.frames start finish = announcement r sibling start ++
      (r.moved.elim [] (r.transferFrames · finish) ++ [result r finish]) := by
  have hsize : (if sibling.isLeaf then "Small" else "Big") =
      if r.moved.isSome then "Big" else "Small" := by
    rw [h]
    cases sibling.isLeaf <;> rfl
  rw [announcement, hsize, Rotation.frames, result]
  cases r.moved <;> rfl

theorem allSlots_picture (n : Node Key) :
    Rotation.allSlots n.picture = List.range n.keys.length := by
  simp [Rotation.allSlots, Node.picture]

/-- No identity occurs twice in the tree around a seam after a rotation. -/
theorem nodup_plug_shifted (hshift : s.Shifted t)
    (hids : D → Issued l.lastId (plug ctx s.close).ids) : D → (plug ctx t.close).ids.Nodup := by
  intro hD
  have hclose : t.close = s.closeWith t.left t.separator t.right := by
    rw [hshift.around]
    rfl
  rw [hclose]
  exact ((hids hD).plug_perm (s.perm_ids_closeWith _ hshift.perm_ids)).nodup

theorem modify_append {α : Type} {xs : List α} {i : Nat} (h : xs.length = i) (x : α) (ys : List α)
    (f : α → α) : (xs ++ x :: ys).modify i f = xs ++ f x :: ys := by
  simp [← h, List.modify_eq_take_drop]

theorem modify_append_next {α : Type} {xs : List α} {i : Nat} (h : xs.length = i) (x y : α)
    (ys : List α) (f : α → α) : (xs ++ x :: y :: ys).modify (i + 1) f = xs ++ x :: f y :: ys := by
  have hlength : (xs ++ [x]).length = i + 1 := by simp [h]
  simpa using modify_append hlength y ys f

theorem ids_blanked (slot : Nat) (p : Picture) : (blanked slot p).ids = p.ids :=
  Node.ids_with_keys p _

theorem perm_ids_withPlaceholder (id gap : Nat) (p : Picture) :
    (withPlaceholder id gap p).ids.Perm (p.ids ++ [id]) := by
  obtain ⟨i, keys, children⟩ := p
  have hgap : min gap children.length ≤ children.length := Nat.min_le_right _ _
  have hchildren := (List.perm_insertIdx (placeholder id) children hgap).flatMap_right Node.ids
  have hid : (placeholder id).ids = [id] := by simp [placeholder, Node.ids_mk]
  rw [List.flatMap_cons, hid] at hchildren
  rw [withPlaceholder, Node.ids_mk, Node.ids_mk]
  exact (hchildren.trans List.perm_append_comm).cons i

section Transfer

variable {p n m moved : Node Key} {child childSlot gap sibling siblingSlot : Nat}

/-- A picture with a blank in one of its children, and an empty node below another one. -/
def transferred (p : Picture) (child gap sibling siblingSlot id : Nat) : Picture :=
  { p with
    children :=
      (p.children.modify sibling (blanked siblingSlot)).modify child (withPlaceholder id gap) }

/-- Both children are found by their identities. -/
theorem modify_transferred (gap siblingSlot : Nat) (hn : p.children[child]? = some n)
    (hm : p.children[sibling]? = some m) (hne : sibling ≠ child)
    (hids : Issued l.lastId (plug ctx p).ids) :
    ((plug ctx p).picture.modify m.id (blanked siblingSlot)).modify n.id
        (withPlaceholder l.proposedId gap) =
      draw ctx (transferred p.picture child gap sibling siblingSlot l.proposedId) ∧
    (draw ctx (transferred p.picture child gap sibling siblingSlot l.proposedId)).ids.Nodup := by
  let q : Picture :=
    { p.picture with children := p.picture.children.modify sibling (blanked siblingSlot) }
  have hm' : p.picture.children[sibling]? = some m.picture := by
    simp [Node.picture, hm]
  have hn' : q.children[child]? = some n.picture := by
    simp [q, List.getElem?_modify_ne _ _ hne, Node.picture, hn]
  have hblank : (blanked siblingSlot m.picture).ids.Perm (m.picture.ids ++ []) := by
    rw [ids_blanked, List.append_nil]
  have hq : q.ids.Perm p.picture.ids := by
    simpa using Node.perm_ids_modify_child hm' hblank
  have hlive : Issued l.lastId (draw ctx p.picture).ids := by
    rwa [← picture_plug, Node.ids_picture]
  have hissued : Issued l.lastId (draw ctx q).ids := hlive.plug_perm hq
  have hfirst : (plug ctx p).picture.modify m.id (blanked siblingSlot) = draw ctx q := by
    rw [picture_plug, ← Node.id_picture]
    exact Node.modify_child hlive.nodup hm' _
  rw [hfirst, ← Node.id_picture]
  refine ⟨Node.modify_child hissued.nodup hn' _, hissued.nodup_proposed ?_⟩
  exact perm_ids_plug _ (Node.perm_ids_modify_child hn' (perm_ids_withPlaceholder _ gap _))

/-- The grandchild that moves is still found below the neighbour. -/
theorem mem_preorder_transferred (hm : p.children[sibling]? = some m) (hne : sibling ≠ child)
    (hmoved : moved ∈ m.children) (id : Nat) :
    moved.picture ∈ (transferred p.picture child gap sibling siblingSlot id).preorder := by
  have hsibling : (transferred p.picture child gap sibling siblingSlot id).children[sibling]? =
      some (blanked siblingSlot m.picture) := by
    simp [transferred, List.getElem?_modify_ne _ _ hne.symm, Node.picture, hm]
  have hbelow : moved.picture ∈ (blanked siblingSlot m.picture).children := by
    have hchildren : (blanked siblingSlot m.picture).children = m.children.map Node.picture :=
      Node.children_map Key.label m
    rw [hchildren]
    exact List.mem_map_of_mem hmoved
  refine Node.mem_preorder_of_mem_children (List.mem_of_getElem? hsibling) ?_
  exact Node.mem_preorder_of_mem_children hbelow (Node.mem_preorder_self _)

/-- A rotation shows a tree in which a grandchild is about to move. -/
theorem leads_recordTransfer {shown : Picture} (hn : p.children[child]? = some n)
    (hm : p.children[sibling]? = some m) (hne : sibling ≠ child) (hmoved : moved ∈ m.children)
    (hids : D → Issued l.lastId (plug ctx p).ids)
    (hshown : transferred p.picture child gap sibling siblingSlot l.proposedId = shown) :
    Leads D capacity ctx (recordTransfer (pathOf ctx) slot child childSlot gap sibling siblingSlot
        moved) p l (pure ()) p l
      [⟨shown, ((both n.id m.id "").index p.id slot "").index n.id childSlot "", l.counters⟩,
        ⟨shown, (((both n.id m.id "").node moved.picture.id false "leftover Child").separator n.id
          gap "here").slotsBelow moved.picture (Rotation.allSlots moved.picture), l.counters⟩] := by
  subst hshown
  refine leads_nodeAt.next ?_
  refine (leads_lift (entry_eq_ok hn)).next ?_
  refine (leads_lift (entry_eq_ok hm)).next ?_
  refine leads_get fun t _ hroot hledger => ?_
  rw [hledger, Tree.picture, hroot, allSlots_picture]
  refine (leads_record fun hD => ⟨(modify_transferred _ _ hn hm hne (hids hD)).1, rfl⟩).bind
    (leads_record fun hD => ?_)
  obtain ⟨hdraw, hnodup⟩ := modify_transferred gap siblingSlot hn hm hne (hids hD)
  rw [hdraw, Node.id_picture]
  refine ⟨rfl, ?_⟩
  rw [← Node.id_picture moved]
  exact subtree_draw hnodup (mem_preorder_transferred hm hne hmoved _) _ _

end Transfer

theorem blanked_last {n : Node Key} {k : Key} (h : n.keys.getLast? = some k) :
    blanked (n.keys.length - 1) n.picture =
      ⟨n.id, n.keys.dropLast.map Key.label ++ [blankLabel], n.children.map Node.picture⟩ := by
  obtain ⟨id, keys, children⟩ := n
  obtain ⟨keys, rfl⟩ : ∃ rest, keys = rest ++ [k] := List.getLast?_eq_some_iff.1 h
  simp [blanked, Node.picture_mk]

theorem blanked_first {n : Node Key} {k : Key} (h : n.keys.head? = some k) :
    blanked 0 n.picture =
      ⟨n.id, blankLabel :: n.keys.tail.map Key.label, n.children.map Node.picture⟩ := by
  obtain ⟨id, keys, children⟩ := n
  obtain ⟨keys, rfl⟩ : ∃ rest, keys = k :: rest := List.head?_eq_some_iff.1 h
  simp [blanked, Node.picture_mk]

/-- Two neighbouring children of a picture are replaced. -/
theorem modify_pictureWith (hc : s.childrenBefore.length = slot) (left right : Picture)
    (label : String) (f g : Picture → Picture) :
    { s.pictureWith left label right with
        children := ((s.pictureWith left label right).children.modify slot f).modify (slot + 1)
          g } = s.pictureWith (f left) label (g right) ∧
      { s.pictureWith left label right with
        children := ((s.pictureWith left label right).children.modify (slot + 1) g).modify slot
          f } = s.pictureWith (f left) label (g right) := by
  have hlength : (s.childrenBefore.map Node.picture).length = slot := by simp [hc]
  simp [Seam.pictureWith, modify_append hlength, modify_append_next hlength]

/-- What a rotation to the right shows before the grandchild moves. -/
theorem between_right {raised : Key} (hraised : s.left.keys.getLast? = some raised)
    (ht : t.separator = raised) :
    (s.rightRotation slot t l).between =
      s.pictureWith (blanked (s.left.keys.length - 1) s.left.picture) raised.label
        (withPlaceholder l.proposedId 0
          (Node.picture ⟨s.right.id, s.separator :: s.right.keys, s.right.children⟩)) := by
  rw [blanked_last hraised]
  simp [Seam.rightRotation, ht, withPlaceholder, Node.picture_mk, placeholder]

/-- What a rotation to the left shows before the grandchild moves. -/
theorem between_left {raised : Key} (hraised : s.right.keys.head? = some raised)
    (ht : t.separator = raised) :
    (s.leftRotation slot t l).between =
      s.pictureWith (withPlaceholder l.proposedId s.left.children.length
          (Node.picture ⟨s.left.id, s.left.keys ++ [s.separator], s.left.children⟩))
        raised.label (blanked 0 s.right.picture) := by
  have hend : (s.left.children.map Node.picture).insertIdx s.left.children.length
      (placeholder l.proposedId) =
        s.left.children.map Node.picture ++ [placeholder l.proposedId] := by
    simpa using List.insertIdx_length_self (l := s.left.children.map Node.picture)
  rw [blanked_first hraised]
  simp [Seam.leftRotation, ht, withPlaceholder, Node.picture_mk, hend]

/-- The last child stands right of the last key. -/
theorem entry_last_child {n d : Node Key} (hfits : n.Fits) (hne : n.keys ≠ [])
    (hd : n.children.getLast? = some d) : entry n.children (n.keys.length - 1 + 1) = .ok d := by
  have hlen := hfits.resolve_left (List.ne_nil_of_mem (List.mem_of_getLast? hd))
  have hpos := List.length_pos_iff.2 hne
  refine entry_eq_ok ?_
  rw [← hd, List.getLast?_eq_getElem?, hlen]
  congr 1
  omega

/-- The last child of the left neighbour moves to the child, if there is any. -/
theorem leads_passRight (hc : s.childrenBefore.length = slot) {raised : Key}
    (hraised : s.left.keys.getLast? = some raised) (ht : t.separator = raised)
    (hfits : s.left.Fits) (hids : D → Issued l.lastId (plug ctx s.close).ids) :
    Leads D capacity ctx
      (passRight (pathOf ctx) (slot + 1) slot (s.left.keys.length - 1) s.left)
      (s.closeWith s.left raised ⟨s.right.id, s.separator :: s.right.keys, s.right.children⟩) l
      (pure s.left.children.getLast?)
      (s.closeWith ⟨s.left.id, s.left.keys, s.left.children.dropLast⟩ raised
        ⟨s.right.id, s.separator :: s.right.keys,
          s.left.children.getLast?.toList ++ s.right.children⟩)
      (l.rotation !s.left.isLeaf)
      ((s.rightRotation slot t l).moved.elim [] ((s.rightRotation slot t l).transferFrames ·
        (l.rotation !s.left.isLeaf).counters)) := by
  have hmoved : (s.rightRotation slot t l).moved = s.left.children.getLast?.map Node.picture := rfl
  rw [hmoved]
  cases hlast : s.left.children.getLast? with
  | none =>
      have hnil : s.left.children = [] := by simpa using hlast
      have hleaf : s.left.isLeaf = true := by simp [Node.isLeaf, hnil]
      have hsame : (⟨s.left.id, s.left.keys, s.left.children.dropLast⟩ : Node Key) = s.left := by
        rw [hnil, List.dropLast_nil, ← hnil, mk_self]
      rw [passRight, hleaf, if_pos rfl, hsame, Option.map_none, Option.elim_none,
        Option.toList_none, List.nil_append]
      exact (leads_account Ledger.smallRotation).next (.refl D capacity ctx _ _ _)
  | some d =>
      have hinner : s.left.isLeaf = false := by
        rw [Node.isLeaf, List.isEmpty_eq_false_iff]
        exact List.ne_nil_of_mem (List.mem_of_getLast? hlast)
      have hne := List.ne_nil_of_mem (List.mem_of_getLast? hraised)
      rw [passRight, hinner, if_neg Bool.false_ne_true]
      refine (leads_account Ledger.bigRotation).next ?_
      refine (leads_lift (entry_last_child hfits hne hlast)).next ?_
      refine Leads.rest (leads_whenRecording ?transfer) ?_
      case transfer =>
        rw [Option.map_some, Option.elim_some, Rotation.transferFrames, between_right hraised ht]
        refine leads_recordTransfer (l := l.bigRotation) (m := s.left)
          (n := ⟨s.right.id, s.separator :: s.right.keys, s.right.children⟩) (getElem?_right hc)
          (getElem?_left hc) (Nat.succ_ne_self slot).symm (List.mem_of_getLast? hlast)
          (fun hD => (hids hD).plug_perm (s.perm_ids_closeWith _ ?_)) ?_
        · rw [Node.ids_with_keys]
        · rw [transferred, Seam.picture_closeWith]
          exact (modify_pictureWith hc _ _ _ _ _).1
      refine Leads.next (leads_alterLeft hc rfl) ?_
      exact Leads.next (leads_alterRight hc rfl) (.refl D capacity ctx _ _ _)

/-- The first child of the right neighbour moves to the child, if there is any. -/
theorem leads_passLeft (hc : s.childrenBefore.length = slot) {raised : Key}
    (hraised : s.right.keys.head? = some raised) (ht : t.separator = raised)
    (hids : D → Issued l.lastId (plug ctx s.close).ids) :
    Leads D capacity ctx (passLeft (pathOf ctx) slot s.left.keys.length s.left s.right)
      (s.closeWith ⟨s.left.id, s.left.keys ++ [s.separator], s.left.children⟩ raised s.right) l
      (pure s.right.children.head?)
      (s.closeWith ⟨s.left.id, s.left.keys ++ [s.separator],
          s.left.children ++ s.right.children.head?.toList⟩ raised
        ⟨s.right.id, s.right.keys, s.right.children.tail⟩)
      (l.rotation !s.right.isLeaf)
      ((s.leftRotation slot t l).moved.elim [] ((s.leftRotation slot t l).transferFrames ·
        (l.rotation !s.right.isLeaf).counters)) := by
  have hmoved : (s.leftRotation slot t l).moved = s.right.children.head?.map Node.picture := rfl
  rw [hmoved]
  cases hchildren : s.right.children with
  | nil =>
      have hleaf : s.right.isLeaf = true := by simp [Node.isLeaf, hchildren]
      have hsame : (⟨s.right.id, s.right.keys, [].tail⟩ : Node Key) = s.right := by
        rw [List.tail_nil, ← hchildren, mk_self]
      rw [passLeft, hleaf, if_pos rfl, hsame, List.head?_nil, Option.map_none, Option.elim_none,
        Option.toList_none, List.append_nil]
      exact (leads_account Ledger.smallRotation).next (.refl D capacity ctx _ _ _)
  | cons d rest =>
      have hinner : s.right.isLeaf = false := by simp [Node.isLeaf, hchildren]
      have hentry : entry s.right.children 0 = .ok d := entry_eq_ok (by simp [hchildren])
      have hremove : removeAt s.right.children 0 = .ok rest := by simp [removeAt, hchildren]
      rw [passLeft, hinner, if_neg Bool.false_ne_true]
      refine (leads_account Ledger.bigRotation).next ?_
      refine (leads_lift hentry).next ?_
      refine Leads.rest (leads_whenRecording ?transfer) ?_
      case transfer =>
        rw [List.head?_cons, Option.map_some, Option.elim_some, Rotation.transferFrames,
          between_left hraised ht]
        refine leads_recordTransfer (l := l.bigRotation) (m := s.right)
          (n := ⟨s.left.id, s.left.keys ++ [s.separator], s.left.children⟩) (getElem?_left hc)
          (getElem?_right hc) (Nat.succ_ne_self slot) (by simp [hchildren])
          (fun hD => (hids hD).plug_perm (s.perm_ids_closeWith _ ?_)) ?_
        · rw [Node.ids_with_keys]
        · rw [transferred, Seam.picture_closeWith]
          exact (modify_pictureWith hc _ _ _ _ _).2
      refine Leads.next (leads_alterRight (m := ⟨s.right.id, s.right.keys, rest⟩) hc ?_) ?_
      · simp [hremove]
      exact Leads.next (leads_alterLeft hc rfl) (.refl D capacity ctx _ _ _)

theorem leads_recordRotated {n parent child sibling : Node Key} {childSlot : Nat}
    {moved : Option (Node Key)} (hids : D → (plug ctx n).ids.Nodup)
    (hmoved : ∀ d ∈ moved, d ∈ n.preorder) :
    Leads D capacity ctx (recordRotated parent child sibling slot childSlot moved) n l (pure ()) n l
      [⟨n.picture, (moved.map Node.picture).elim
        (((both child.id sibling.id "").index parent.id slot "").index child.id childSlot "")
        fun moved => (both child.id sibling.id "").slotsBelow moved (Rotation.allSlots moved),
        l.counters⟩] := by
  cases moved with
  | none => exact leads_recordLive _
  | some moved =>
      rw [Option.map_some, Option.elim_some, allSlots_picture]
      exact leads_recordSubtree hids (hmoved moved rfl) _ _

theorem leads_rotateRight (hk : s.keysBefore.length = slot) (hc : s.childrenBefore.length = slot)
    (ht : s.rotateRight? = some t) (hfits : s.left.Fits)
    (hids : D → Issued l.lastId (plug ctx s.close).ids) :
    Leads D capacity ctx (rotateRight (pathOf ctx) (slot + 1)) s.close l (pure ()) t.close
      (l.rotation !s.left.isLeaf)
      ((s.rightRotation slot t l).frames l.counters (l.rotation !s.left.isLeaf).counters) := by
  have hshift := Seam.shifted_right ht
  obtain ⟨raised, hraised, rfl⟩ := Option.map_eq_some_iff.1 ht
  have hlast : entry s.left.keys (s.left.keys.length - 1) = .ok raised := by
    rw [List.getLast?_eq_getElem?] at hraised
    exact entry_eq_ok hraised
  have hpos := List.length_pos_of_mem (List.mem_of_getLast? hraised)
  rw [frames_eq _ (s.isSome_moved slot _ l).1]
  refine leads_nodeAt.next ?_
  refine (leads_lift (entry_right hc)).next ?_
  refine (leads_lift (less_eq (Nat.le_add_left 1 slot))).next ?_
  refine (leads_lift (entry_left hc)).next ?_
  refine (leads_lift (less_eq hpos)).next ?_
  refine Leads.bind (leads_whenRecording ((leads_recordLive _).bind (leads_recordLive _))) ?_
  refine (leads_lift hlast).next ?_
  refine (leads_lift (entry_separator hk)).next ?_
  refine (leads_alterSeparator hk raised).next ?_
  refine Leads.next (leads_alterRight hc rfl) ?_
  refine (leads_passRight hc hraised rfl hfits hids).bind ?_
  refine Leads.next (leads_alterLeft hc rfl) ?_
  refine leads_whenRecording (leads_recordRotated (nodup_plug_shifted hshift hids) ?_)
  intro d hd
  refine Node.mem_preorder_of_mem_children (List.mem_of_getElem? (getElem?_right hc)) ?_
  exact Node.mem_preorder_of_mem_children (by simp [Option.mem_def.1 hd])
    (Node.mem_preorder_self d)

theorem leads_rotateLeft (hk : s.keysBefore.length = slot) (hc : s.childrenBefore.length = slot)
    (ht : s.rotateLeft? = some t) (hids : D → Issued l.lastId (plug ctx s.close).ids) :
    Leads D capacity ctx (rotateLeft (pathOf ctx) slot) s.close l (pure ()) t.close
      (l.rotation !s.right.isLeaf)
      ((s.leftRotation slot t l).frames l.counters (l.rotation !s.right.isLeaf).counters) := by
  have hshift := Seam.shifted_left ht
  obtain ⟨raised, hraised, rfl⟩ := Option.map_eq_some_iff.1 ht
  have hfirst : entry s.right.keys 0 = .ok raised := by
    rw [List.head?_eq_getElem?] at hraised
    exact entry_eq_ok hraised
  have hremove : removeAt s.right.keys 0 = .ok s.right.keys.tail := by
    have hpos := List.length_pos_of_mem (List.mem_of_head? hraised)
    simp [removeAt, hpos]
  rw [frames_eq _ (s.isSome_moved slot _ l).2]
  refine leads_nodeAt.next ?_
  refine (leads_lift (entry_left hc)).next ?_
  refine (leads_lift (entry_right hc)).next ?_
  refine Leads.bind (leads_whenRecording ((leads_recordLive _).bind (leads_recordLive _))) ?_
  refine (leads_lift hfirst).next ?_
  refine (leads_lift (entry_separator hk)).next ?_
  refine (leads_alterSeparator hk raised).next ?_
  refine Leads.next (leads_alterLeft hc rfl) ?_
  refine (leads_lift (less_eq (Nat.le_add_left 1 _))).next ?_
  refine (leads_passLeft hc hraised rfl hids).bind ?_
  refine Leads.next (leads_alterRight (m := ⟨s.right.id, s.right.keys.tail,
    s.right.children.tail⟩) hc ?_) ?_
  · simp [hremove]
  refine leads_whenRecording (leads_recordRotated (nodup_plug_shifted hshift hids) ?_)
  intro d hd
  refine Node.mem_preorder_of_mem_children (List.mem_of_getElem? (getElem?_left hc)) ?_
  exact Node.mem_preorder_of_mem_children (by simp [Option.mem_def.1 hd])
    (Node.mem_preorder_self d)

end Rotate

/-! ## Which repair is made -/

section Choice

variable {n m c d : Node Key} {minimum i : Nat} {plan : Repair} {l' : Ledger}

theorem filter_eq_none {x : Option (Node Key)} (h : x.map (·.keys.length) ≠ some minimum) :
    x.filter (·.keys.length = minimum) = none := by
  cases x with
  | none => rfl
  | some d => simpa using h

theorem ne_keep (hchild : n.children[i]? = some c) (hshort : ¬minimum ≤ c.keys.length)
    (hplan : n.repairFor minimum i = .ok plan) : plan ≠ .keep := by
  rintro rfl
  rw [Node.repairFor, hchild] at hplan
  simp only [hshort, if_false] at hplan
  split_ifs at hplan <;> cases hplan

/-- A merge with the left neighbour. -/
theorem leads_mergeLeft (hd : n.leftSibling? i = some d) (hchild : n.children[i]? = some c)
    (hdone : (n.seam (i - 1) >>= fun s => .ok (s.merge, l.merge)) = .ok (m, l')) :
    Leads D capacity ctx (do
        whenRecording (recordMerge c d "left")
        mergeChildren (pathOf ctx) (← less i 1)) n l (pure ()) m l'
      (n.planFrames i l .mergeLeft) := by
  cases i with
  | zero => cases hd
  | succ slot =>
      obtain ⟨s, hs, rfl, hk, hc, hdone⟩ := Seam.exists_opened_at hdone
      obtain ⟨rfl, rfl⟩ := Prod.mk.inj (Except.ok.inj hdone)
      obtain rfl : s.left = d := Option.some.inj ((getElem?_left hc).symm.trans hd)
      obtain rfl : s.right = c := Option.some.inj ((getElem?_right hc).symm.trans hchild)
      rw [Node.planFrames, hs]
      refine Leads.bind (leads_whenRecording (leads_recordLive _)) ?_
      refine (leads_lift (less_eq (Nat.le_add_left 1 slot))).next ?_
      exact leads_mergeChildren hk hc

/-- A merge with the right neighbour. -/
theorem leads_mergeRight (hd : n.children[i + 1]? = some d) (hchild : n.children[i]? = some c)
    (hdone : (n.seam i >>= fun s => .ok (s.merge, l.merge)) = .ok (m, l')) :
    Leads D capacity ctx (do
        whenRecording (recordMerge c d "right")
        mergeChildren (pathOf ctx) i) n l (pure ()) m l'
      (n.planFrames i l .mergeRight) := by
  obtain ⟨s, hs, rfl, hk, hc, hdone⟩ := Seam.exists_opened_at hdone
  obtain ⟨rfl, rfl⟩ := Prod.mk.inj (Except.ok.inj hdone)
  obtain rfl : s.left = c := Option.some.inj ((getElem?_left hc).symm.trans hchild)
  obtain rfl : s.right = d := Option.some.inj ((getElem?_right hc).symm.trans hd)
  rw [Node.planFrames, hs]
  exact Leads.bind (leads_whenRecording (leads_recordLive _)) (leads_mergeChildren hk hc)

/-- A key taken from the left neighbour. -/
theorem leads_borrowLeft (hfits : ∀ d ∈ n.children, d.Fits)
    (hids : D → Issued l.lastId (plug ctx n).ids) (hd : n.leftSibling? i = some d)
    (hdone : (n.seam (i - 1) >>= fun s => s.rotateRight?.elim (.error .missingChild) .ok >>=
      fun t => .ok (t.close, l.rotation !s.left.isLeaf)) = .ok (m, l')) :
    Leads D capacity ctx (rotateRight (pathOf ctx) i) n l (pure ()) m l'
      (n.planFrames i l .rotateRight) := by
  cases i with
  | zero => cases hd
  | succ slot =>
      obtain ⟨s, hs, rfl, hk, hc, hdone⟩ := Seam.exists_opened_at hdone
      obtain ⟨t, ht, hdone⟩ := bind_eq_ok_iff.1 hdone
      obtain ⟨rfl, rfl⟩ := Prod.mk.inj (Except.ok.inj hdone)
      rw [Node.elim_eq_ok_iff] at ht
      have hleft : s.left ∈ s.close.children := List.mem_of_getElem? (getElem?_left hc)
      rw [Node.planFrames, hs, Option.elim_some, ht, Option.elim_some]
      exact leads_rotateRight hk hc ht (hfits _ hleft) hids

/-- A key taken from the right neighbour. -/
theorem leads_borrowRight (hids : D → Issued l.lastId (plug ctx n).ids)
    (hdone : (n.seam i >>= fun s => s.rotateLeft?.elim (.error .missingChild) .ok >>=
      fun t => .ok (t.close, l.rotation !s.right.isLeaf)) = .ok (m, l')) :
    Leads D capacity ctx (rotateLeft (pathOf ctx) i) n l (pure ()) m l'
      (n.planFrames i l .rotateLeft) := by
  obtain ⟨s, hs, rfl, hk, hc, hdone⟩ := Seam.exists_opened_at hdone
  obtain ⟨t, ht, hdone⟩ := bind_eq_ok_iff.1 hdone
  obtain ⟨rfl, rfl⟩ := Prod.mk.inj (Except.ok.inj hdone)
  rw [Node.elim_eq_ok_iff] at ht
  rw [Node.planFrames, hs, Option.elim_some, ht, Option.elim_some]
  exact leads_rotateLeft hk hc ht hids

/-- A child that is too small is repaired at the seam with one of its neighbours. -/
theorem leads_repairWith (hfits : ∀ d ∈ n.children, d.Fits)
    (hids : D → Issued l.lastId (plug ctx n).ids) (hchild : n.children[i]? = some c)
    (hshort : ¬minimum ≤ c.keys.length) (hplan : n.repairFor minimum i = .ok plan)
    (hrepair : n.repair minimum i l = .ok (m, l')) :
    Leads D capacity ctx
      (repairWith (pathOf ctx) i c (n.leftSibling? i) n.children[i + 1]? minimum) n l (pure ()) m l'
      (n.planFrames i l plan) := by
  rw [Node.repair, hplan, ok_bind] at hrepair
  rw [Node.repairFor, hchild] at hplan
  simp only [hshort, if_false] at hplan
  by_cases hleft : (n.leftSibling? i).map (·.keys.length) = some minimum
  · rw [if_pos hleft] at hplan
    obtain rfl := Except.ok.inj hplan
    obtain ⟨d, hd, hlen⟩ := Option.map_eq_some_iff.1 hleft
    have hfilter : (n.leftSibling? i).filter (·.keys.length = minimum) = some d := by
      simp [hd, hlen]
    rw [repairWith, hfilter]
    exact leads_mergeLeft hd hchild hrepair
  rw [if_neg hleft] at hplan
  by_cases hright : n.children[i + 1]?.map (·.keys.length) = some minimum
  · rw [if_pos hright] at hplan
    obtain rfl := Except.ok.inj hplan
    obtain ⟨d, hd, hlen⟩ := Option.map_eq_some_iff.1 hright
    have hfilter : n.children[i + 1]?.filter (·.keys.length = minimum) = some d := by
      simp [hd, hlen]
    rw [repairWith, filter_eq_none hleft, hfilter]
    exact leads_mergeRight hd hchild hrepair
  rw [if_neg hright, Option.any_map, Option.any_map] at hplan
  rw [repairWith, filter_eq_none hleft, filter_eq_none hright]
  dsimp only
  by_cases hgive : (n.leftSibling? i).any (minimum < ·.keys.length)
  · rw [if_pos hgive] at hplan ⊢
    obtain rfl := Except.ok.inj hplan
    obtain ⟨d, hd, -⟩ := (Option.any_eq_true _ _).1 hgive
    exact leads_borrowLeft hfits hids hd hrepair
  rw [if_neg hgive] at hplan ⊢
  by_cases htake : n.children[i + 1]?.any (minimum < ·.keys.length)
  · rw [if_pos htake] at hplan ⊢
    obtain rfl := Except.ok.inj hplan
    exact leads_borrowRight hids hrepair
  · rw [if_neg htake] at hplan
    cases hplan

/-- **A guarded repair never fails** where the repair succeeds on a child that lacks at most one
key. -/
theorem leads_rebalance (hfits : ∀ d ∈ n.children, d.Fits)
    (hids : D → Issued l.lastId (plug ctx n).ids) (hchild : n.children[i]? = some c)
    (hshort : capacity / 2 ≤ c.keys.length + 1)
    (hrepair : n.repair (capacity / 2) i l = .ok (m, l')) :
    Leads D capacity ctx (rebalance (pathOf ctx) i) n l (pure ()) m l'
      (n.repairFrames (capacity / 2) i l) := by
  refine leads_get fun t ht _ _ => ?_
  refine leads_nodeAt.next ?_
  refine (leads_lift (entry_eq_ok hchild)).next ?_
  rw [Tree.minKeys, ht, if_neg (Nat.not_lt.2 hshort)]
  by_cases hheld : capacity / 2 ≤ c.keys.length
  · have hkeep : n.repairFor (capacity / 2) i = .ok .keep := by
      simp [Node.repairFor, hchild, hheld]
    rw [Node.repair, hkeep] at hrepair
    obtain ⟨rfl, rfl⟩ := Prod.mk.inj (Except.ok.inj hrepair)
    rw [if_pos hheld, Node.repairFrames_of_le hchild hheld]
    exact .refl D capacity ctx _ _ _
  · obtain ⟨plan, hplan, -⟩ := bind_eq_ok_iff.1 hrepair
    rw [if_neg hheld, Node.repairFrames_of_plan hplan (ne_keep hchild hheld hplan) hchild]
    exact Leads.bind (leads_whenRecording (leads_recordLive _))
      (leads_repairWith hfits hids hchild hheld hplan hrepair)

end Choice

end Guarded

end TracedTree
