import TracedTree.Proofs.Highlights
import TracedTree.Proofs.InsertFrames

/-!
# Highlights of an insertion

What the frames of an insertion emphasize is shown. The step is again that of
`Node.insert_induction`: a node is searched and receives a key, and its child is shown within it.
While a key goes up from a divided child, the halves hang below a proposed node, whose identity is
newer than any that was handed out.

## Main statements

* `Tree.Valid.grounded_addFrames`: the frames of an insertion into a valid tree are grounded.
-/

namespace TracedTree

variable {capacity h : Nat} {k : Key} {ledger l : Ledger}

/-- What was handed out is newer than what was there. -/
theorem HandedOut.renewed {s : Nat} {ids more : List Nat} (hout : HandedOut s ledger l ids more)
    (hids : Issued ledger.lastId ids) : Renewed ledger.lastId ids more := by
  refine ⟨(hout.nodup hids.nodup hids.le).1, ?_⟩
  intro id hid
  rcases List.mem_append.1 (hout.perm.mem_iff.1 hid) with hid | hid
  · exact .inl hid
  · exact .inr (List.mem_range'_1.1 hid).1

/-- So is the identity that is proposed behind them. -/
theorem HandedOut.renewed_proposed {s : Nat} {ids more : List Nat}
    (hout : HandedOut s ledger l ids more) (hids : Issued ledger.lastId ids) :
    Renewed ledger.lastId ids (l.proposedId :: more) := by
  obtain ⟨hnodup, hle⟩ := hout.nodup hids.nodup hids.le
  have hlast := hout.lastId_eq
  constructor
  · refine List.nodup_cons.2 ⟨?_, hnodup⟩
    intro hid
    have := hle _ hid
    rw [Ledger.proposedId] at this
    omega
  · refine List.forall_mem_cons.2 ⟨.inr ?_, (hout.renewed hids).old_or_new⟩
    rw [Ledger.proposedId]
    omega

namespace Node

variable {m n : Node Key} {last i : Nat}

/-! ## The search -/

theorem grounded_probeFrames (hn : Renewed last m.ids n.ids) (k : Key) (lowest : Nat)
    (c : Counters) : Grounded last m (n.probeFrames k lowest c) := by
  have hp := hn.picture.nodup
  have hself := displays_picture (mem_preorder_self n)
  refine grounded_of_refers hn (List.forall_mem_map.2 ?_)
  intro gap hgap
  have hle : gap ≤ n.keys.length := by
    obtain ⟨hlow, hhigh⟩ := List.mem_range'_1.1 (List.mem_reverse.1 hgap)
    omega
  exact ⟨rfl, ((Highlight.refers_none _).node hp hself _ _).separator hp hself hle _⟩

theorem grounded_descentFrames (hn : Renewed last m.ids n.ids) (k : Key) (i : Nat) (c : Counters) :
    Grounded last m (n.descentFrames k i c) := by
  have hp := hn.picture.nodup
  refine (grounded_probeFrames hn k i c).append
    (grounded_of_refers hn (List.forall_mem_map.2 ?_))
  intro d hd
  have hchild : d ∈ n.children := List.mem_of_getElem? (Option.mem_toList.1 hd)
  have hshown := displays_picture (mem_preorder_child (mem_preorder_self n) hchild)
  exact ⟨rfl, ((Highlight.refers_none _).node hp hshown _ _).edge
    (joins_picture (mem_preorder_self n) hchild) _⟩

/-! ## What a node receives -/

theorem grounded_overflowFrames (hn : Renewed last m.ids n.ids) (hi : i < n.keys.length)
    (cameUp : Bool) (c : Counters) : Grounded last m (n.overflowFrames i cameUp c) := by
  have hp := hn.picture.nodup
  have hself := displays_picture (mem_preorder_self n)
  have hmiddle : n.middle < n.keys.length := by
    rw [middle]
    omega
  have harrived := (Highlight.refers_none n.picture).index hp hself hi ""
  have hoverflow := (Highlight.refers_none n.picture).node hp hself true "Overflow"
  refine grounded_of_refers hn ?_
  simp only [overflowFrames, List.forall_mem_cons, true_and]
  refine ⟨?_, hoverflow, hoverflow.index hp hself hmiddle _, List.forall_mem_nil _⟩
  cases cameUp with
  | false => exact harrived
  | true => exact harrived.slotBelow hp (mem_preorder_self _) (by simpa [picture] using hi)

theorem grounded_receivedFrames (hn : Renewed last m.ids n.ids) (hi : i < n.keys.length)
    {arrived : Highlight} (harrived : arrived.Refers n.picture) (cameUp : Bool) (c : Counters) :
    Grounded last m (n.receivedFrames capacity i cameUp arrived c) := by
  rw [receivedFrames]
  split
  · exact grounded_of_refers hn (List.forall_mem_singleton.2 ⟨rfl, harrived⟩)
  · exact grounded_overflowFrames hn hi cameUp c

/-- A leaf is searched and receives the key. -/
theorem grounded_leafInsertFrames (hn : Renewed last m.ids n.ids) (k : Key) (c : Counters) :
    Grounded last m (n.leafInsertFrames capacity k c) := by
  have hwith : Renewed last m.ids (n.withKey k).ids := by rwa [ids_withKey]
  have hslot : n.slotFor k < (n.withKey k).keys.length := by simp [slotFor, withKey]
  have hprobes : Grounded last m
      (if n.keys.isEmpty then [] else n.probeFrames k (n.slotFor k) c) := by
    split
    · exact grounded_nil last m
    · exact grounded_probeFrames hn k _ c
  have harrived := (Highlight.refers_none (n.withKey k).picture).index hwith.picture.nodup
    (displays_picture (mem_preorder_self (n.withKey k))) hslot ""
  have hreceived : Grounded last m ((n.withKey k).receivedFrames capacity (n.slotFor k) false
      (Highlight.none.index n.id (n.slotFor k) "") c) :=
    grounded_receivedFrames hwith hslot harrived false c
  exact hprobes.append hreceived

/-! ## Halves -/

section Halves

variable {before after : List Key} {left right : List (Node Key)} {d e : Node Key} {a : Key}
  {id : Nat}

theorem proposal_eq (id : Nat) (d : Node Key) (a : Key) (e : Node Key) :
    proposal id d a e = picture ⟨id, [a], [d, e]⟩ := by
  simp [proposal]

/-- A proposed node that is shown anywhere is shown with both halves. -/
theorem refers_proposed (hn : n.picture.ids.Nodup) (hm : ⟨id, [a], [d, e]⟩ ∈ n.preorder) :
    (Highlight.proposed id d e).Refers n.picture := by
  have hself := displays_picture hm
  have hleft := displays_picture (mem_preorder_child (c := d) hm (by simp))
  have hright := displays_picture (mem_preorder_child (c := e) hm (by simp))
  exact ((((Highlight.refers_none _).index hn hself Nat.one_pos _).node hn hself _ _).node hn
    hleft _ _).node hn hright _ _

/-- The halves are shown below a node that is proposed in the place of their child. -/
theorem grounded_promotionFrames
    (hn : n = ⟨id, before ++ after, left ++ ⟨l.proposedId, [a], [d, e]⟩ :: right⟩)
    (hids : Renewed last m.ids n.ids) (h : left.length = before.length) (c : Node Key) :
    Grounded last m (promotionFrames ⟨id, before ++ after, left ++ c :: right⟩ before.length d a e
      l) := by
  have hp := hids.picture.nodup
  have hchild : (⟨l.proposedId, [a], [d, e]⟩ : Node Key) ∈ n.children := by
    rw [hn]
    simp
  have hmem := mem_preorder_child (mem_preorder_self n) hchild
  have hlifted := displays_picture hmem
  have hself := displays_picture (mem_preorder_self n)
  have hid : n.id = id := by rw [hn]
  have hgap : before.length ≤ n.keys.length := by
    rw [hn]
    simp
  have hslot : 0 < (picture ⟨l.proposedId, [a], [d, e]⟩).keys.length := by simp
  have hshown : (picture ⟨id, before ++ after, left ++ c :: right⟩).withChild before.length
      (picture ⟨l.proposedId, [a], [d, e]⟩) = n.picture := by
    rw [withChild_picture h, hn]
    simp
  refine grounded_of_refers hids ?_
  simp only [promotionFrames, List.forall_mem_cons, proposal_eq, hshown, true_and]
  rw [← hid]
  refine ⟨refers_proposed hp hmem, ?_, ?_, List.forall_mem_nil _⟩
  · exact ((Highlight.refers_none _).node hp hlifted _ _).slotBelow hp (mem_picture hmem) hslot
  · have hhalves := (Highlight.refers_none _).slotBelow hp (mem_picture hmem) hslot
    exact ((hhalves.node hp hself _ _).separator hp hself hgap _).edge
      (joins_picture (mem_preorder_self n) hchild) _

end Halves

/-! ## The descent -/

/-- **The frames of an insertion below a node** refer to what they show. -/
theorem grounded_insert (hcap : 0 < capacity) (hn : n.Balanced capacity h)
    (hlen : n.keys.length ≤ capacity) (hids : Issued ledger.lastId n.ids) :
    Grounded ledger.lastId n (n.insertFrames capacity k ledger) := by
  have key := insert_induction ledger (k := k)
    (P := fun _ n g => n.insert capacity k ledger = .ok g ∧ (Issued ledger.lastId n.ids →
      Grounded ledger.lastId n (n.insertFrames capacity k ledger)))
    ?leaf ?whole ?halves hcap hn hlen
  · obtain ⟨g, -, -, -, hgrounded⟩ := key
    exact hgrounded hids
  case leaf =>
    intro id keys _
    refine ⟨by rw [insert]; rfl, ?_⟩
    intro hids
    exact grounded_leafInsertFrames (.refl hids.nodup) k ledger.counters
  case whole =>
    intro h id before after left right c d l hopen hc hroute _ hchild
    obtain ⟨hg, hgrounded⟩ := hchild
    have hi := hopen.left_length
    refine ⟨?_, ?_⟩
    · rw [insert_opened hi hroute.takeWhile_eq, hg, ok_map, receive, withChild_append hi]
    intro hids
    have hbelow := (hgrounded hids.child).within hi hids (before ++ after) c
    rw [insertFrames_opened hi hroute.takeWhile_eq id hg, receiveFrames, List.append_nil]
    exact (grounded_descentFrames (.refl hids.nodup) k _ _).append hbelow
  case halves =>
    intro h id before after left right c d a e l hopen hc hroute hlen hd he hchild
    obtain ⟨hg, hgrounded⟩ := hchild
    have hi := hopen.left_length
    refine ⟨?_, ?_⟩
    · rw [insert_opened hi hroute.takeWhile_eq, hg, ok_map, receive, withHalves_append hi]
    intro hids
    have hbelow := (hgrounded hids.child).within hi hids (before ++ after) c
    obtain ⟨g, s, hg', hout, -⟩ := ids_insert hcap hc.1 hc.2.2 ledger
    obtain rfl := Except.ok.inj (hg'.symm.trans hg)
    -- The halves take the place of the child, at first below the proposed node.
    have hlifted : Renewed ledger.lastId (ids ⟨id, before ++ after, left ++ c :: right⟩)
        (ids ⟨id, before ++ after, left ++ ⟨l.proposedId, [a], [d, e]⟩ :: right⟩) := by
      rw [ids_opened _ _ _ ⟨l.proposedId, [a], [d, e]⟩]
      simpa [Growth.ids, ids_mk] using (hout.renewed_proposed hids.child).opened hids
    have hfilled : Renewed ledger.lastId (ids ⟨id, before ++ after, left ++ c :: right⟩)
        (ids ⟨id, before ++ a :: after, left ++ d :: e :: right⟩) := by
      rw [ids_opened _ _ _ d]
      simpa [Growth.ids] using (hout.renewed hids.child).opened hids
    have hslot : before.length < (before ++ a :: after).length := by simp
    have harrived := (Highlight.refers_none _).slotBelow hfilled.picture.nodup
      (mem_preorder_self _) (i := before.length) (by simp)
    rw [insertFrames_opened hi hroute.takeWhile_eq id hg, receiveFrames, withHalves_append hi]
    exact ((grounded_descentFrames (.refl hids.nodup) k _ _).append hbelow).append
      ((grounded_promotionFrames rfl hlifted hi c).append
        (grounded_receivedFrames hfilled hslot harrived true l.counters))

end Node

/-! ## The whole insertion -/

/-- A new root is shown as a proposed one. -/
theorem Growth.grounded_rootFrames {s : Nat} {n : Node Key} {g : Growth × Ledger}
    (hout : HandedOut s ledger g.2 n.ids g.1.ids) (hids : Issued ledger.lastId n.ids) :
    Grounded ledger.lastId n (rootFrames g) := by
  obtain ⟨g, l⟩ := g
  cases g with
  | whole d => exact grounded_nil _ n
  | halves d a e =>
      have hshown : Renewed ledger.lastId n.ids (Node.ids ⟨l.proposedId, [a], [d, e]⟩) := by
        simpa [Growth.ids, Node.ids_mk] using hout.renewed_proposed hids
      have hp := hshown.picture.nodup
      have hself := Node.displays_picture
        (Node.mem_preorder_self (⟨l.proposedId, [a], [d, e]⟩ : Node Key))
      refine grounded_of_refers hshown ?_
      simp only [rootFrames, List.forall_mem_cons, Node.proposal_eq, true_and]
      exact ⟨Node.refers_proposed hp (Node.mem_preorder_self _),
        ((Highlight.refers_none _).node hp hself _ _).index hp hself Nat.one_pos _,
        List.forall_mem_nil _⟩

namespace Tree

variable {t : Tree}

theorem Valid.issued (ht : t.Valid) : Issued t.ledger.lastId t.root.ids :=
  ⟨ht.ids_nodup, ht.ids_le⟩

theorem Valid.grounded_announcement (ht : t.Valid) (message : String) :
    Grounded t.ledger.lastId t.root [t.announcement message] := by
  have hids : Renewed t.ledger.lastId t.root.ids t.root.ids := .refl ht.ids_nodup
  refine grounded_of_refers hids (List.forall_mem_singleton.2 ⟨rfl, ?_⟩)
  exact (Highlight.refers_none _).node hids.picture.nodup
    (Node.displays_picture (Node.mem_preorder_self t.root)) _ _

/-- **The frames of an insertion** into a valid tree refer to what they show. -/
theorem Valid.grounded_addFrames (ht : t.Valid) (k : Key) :
    Grounded t.ledger.lastId t.root (t.addFrames k) := by
  obtain ⟨h, hbal, hlen, -⟩ := t.valid_iff.1 ht
  have hcap := t.two_le_maxKeys
  obtain ⟨g, s, hg, hout, -⟩ := Node.ids_insert (k := k) (by omega) hbal hlen t.ledger
  rw [addFrames, hg, ok_toOption, Option.toList_some, List.flatMap_singleton]
  exact ((ht.grounded_announcement _).append
    (Node.grounded_insert (by omega) hbal hlen ht.issued)).append
      (Growth.grounded_rootFrames hout ht.issued)

end Tree

end TracedTree
