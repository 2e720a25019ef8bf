import TracedTree.Proofs.InsertHighlights
import TracedTree.Proofs.Recording
import TracedTree.Proofs.RemoveFrames
import TracedTree.Proofs.RepairHighlights

/-!
# Highlights of a removal

What the frames of a removal emphasize is shown. The way to a predecessor follows the last children
down to a leaf, which holds a key as all nodes below the root do. Behind the search each parent
shows the frames of its child and then those of the repair, which change no identity but drop some.

## Main statements

* `Tree.Valid.grounded_removeFrames`: the frames of a removal from a valid tree are grounded.
* `Tree.Valid.highlights_refer`: every frame that an operation records refers to its picture.
-/

namespace TracedTree

variable {capacity h : Nat} {k : Key} {ledger l : Ledger}

namespace Node

variable {m n child : Node Key} {last i : Nat}

/-! ## The search -/

theorem grounded_searchFrames (hn : Renewed last m.ids n.ids) (k : Key) (lowest : Nat)
    (c : Counters) : Grounded last m (n.searchFrames k lowest c) := by
  have hp := hn.picture.nodup
  have hself := displays_picture (mem_preorder_self n)
  have hfinding := (Highlight.refers_none _).node hp hself false "finding Key"
  refine grounded_of_refers hn (List.forall_mem_map.2 ?_)
  intro place hplace
  have hle : place ≤ 2 * n.keys.length := by
    obtain ⟨hlow, hhigh⟩ := List.mem_range'_1.1 (List.mem_reverse.1 hplace)
    omega
  refine ⟨rfl, ?_⟩
  simp only [searchStep]
  split
  · exact hfinding.index hp hself (by omega) _
  · exact hfinding.separator hp hself (by omega) _

theorem grounded_enterFrames (hn : Renewed last m.ids n.ids) (i : Nat) (c : Counters) :
    Grounded last m (n.enterFrames i c) := by
  have hp := hn.picture.nodup
  refine grounded_of_refers hn (List.forall_mem_map.2 ?_)
  intro d hd
  have hchild : d ∈ n.children := List.mem_of_getElem? (Option.mem_toList.1 hd)
  have hedge := (Highlight.refers_none _).edge (joins_picture (mem_preorder_self n) hchild) true
  have hshown := displays_picture (mem_preorder_child (mem_preorder_self n) hchild)
  exact ⟨rfl, hedge.node hp hshown _ _⟩

theorem slotOf?_lt (hslot : n.slotOf? k = some i) : i < n.keys.length := by
  obtain ⟨hlt, -⟩ := List.findIdx?_eq_some_iff_getElem.1 hslot
  exact hlt

theorem grounded_leafSearchFrames (hn : Renewed last m.ids n.ids) (k : Key) (c : Counters) :
    Grounded last m (n.leafSearchFrames k c) := by
  have hp := hn.picture.nodup
  have hself := displays_picture (mem_preorder_self n)
  refine grounded_of_refers hn (List.forall_mem_map.2 ?_)
  intro slot hslot
  have hlt : slot < n.keys.length := by
    obtain ⟨hlow, hhigh⟩ := List.mem_range'_1.1 (List.mem_reverse.1 hslot)
    omega
  exact ⟨rfl, ((Highlight.refers_none _).node hp hself _ _).index hp hself hlt _⟩

/-- A leaf is searched, and shown without the key. -/
theorem grounded_leafRemoveFrames (hn : Renewed last m.ids n.ids) (k : Key) (ledger : Ledger) :
    Grounded last m (n.leafRemoveFrames k ledger) := by
  have hp := hn.picture.nodup
  have hself := displays_picture (mem_preorder_self n)
  refine (grounded_leafSearchFrames hn k ledger.counters).append ?_
  cases hslot : n.slotOf? k with
  | none =>
      exact grounded_of_refers hn (List.forall_mem_singleton.2
        ⟨rfl, (Highlight.refers_none _).node hp hself _ _⟩)
  | some slot =>
      have hids : (n.removeFromLeaf k ledger).node.ids = n.ids := by
        rw [removeFromLeaf, hslot]
        simp [ids, preorder_eq]
      have hafter : Renewed last m.ids (n.removeFromLeaf k ledger).node.ids := by rwa [hids]
      rw [Grounded, List.forall_mem_cons, List.forall_mem_singleton]
      exact ⟨⟨hn.picture, (Highlight.refers_none _).index hp hself (slotOf?_lt hslot) _⟩,
        hafter.picture, Highlight.refers_none _⟩

/-! ## The predecessor -/

theorem rightSpine_append (id : Nat) (keys : List Key) (left : List (Node Key)) (c : Node Key) :
    rightSpine ⟨id, keys, left ++ [c]⟩ = ⟨id, keys, left ++ [c]⟩ :: c.rightSpine := by
  have hlast : ∀ left : List (Node Key), rightSpineLast (left ++ [c]) = c.rightSpine := by
    intro left
    induction left with
    | nil => rfl
    | cons d left ih => cases left <;> exact ih
  rw [rightSpine, hlast]

theorem exists_rightSpine (n : Node Key) : ∃ rest, n.rightSpine = n :: rest := by
  obtain ⟨id, keys, children⟩ := n
  exact ⟨_, rightSpine.eq_def _⟩

/-- The right spine of a balanced node is a leaf, or the node and the right spine of its last
child. -/
theorem Balanced.rightSpine_induction {P : Node Key → List (Node Key) → Prop}
    (leaf : ∀ n : Node Key, n.keys ≠ [] → P n [n])
    (inner : ∀ n c rest, c ∈ n.children → c.rightSpine = c :: rest → P c (c :: rest) →
      P n (n :: c :: rest))
    (hcap : 2 ≤ capacity) (hn : n.Balanced capacity h) (hne : n.keys ≠ []) : P n n.rightSpine := by
  induction h generalizing n with
  | zero =>
      obtain ⟨id, keys, children⟩ := n
      obtain rfl : children = [] := hn
      exact leaf _ hne
  | succ h ih =>
      obtain ⟨left, c, hn', hopen, hc⟩ := hn.opened_last
      obtain ⟨rest, hrest⟩ := c.exists_rightSpine
      have hbelow := ih hc.1 (hc.keys_ne_nil hcap)
      rw [hrest] at hbelow
      rw [hn', rightSpine_append, hrest]
      exact inner _ c rest (by simp) hrest hbelow

/-- The steps down a right spine refer to the nodes on it. -/
theorem refers_spineSteps (hcap : 2 ≤ capacity) (hn : n.Balanced capacity h) (hne : n.keys ≠ [])
    {p : Node Key} (hp : p.picture.ids.Nodup) {base : Highlight} (hbase : base.Refers p.picture)
    (hmem : n ∈ p.preorder) : ∀ step ∈ spineSteps base n.rightSpine, step.Refers p.picture := by
  have key := hn.rightSpine_induction (P := fun n spine => n ∈ p.preorder →
    ∀ step ∈ spineSteps base spine, step.Refers p.picture) ?leaf ?inner hcap hne
  · exact key hmem
  case leaf =>
    intro n hne hmem
    have hslot : n.keys.length - 1 < n.keys.length := by
      have := List.length_pos_iff.2 hne
      omega
    exact List.forall_mem_singleton.2 (hbase.index hp (displays_picture hmem) hslot _)
  case inner =>
    intro n c rest hc _ hbelow hmem
    have hmem' := mem_preorder_child hmem hc
    have hshown := displays_picture hmem'
    rw [spineSteps, List.forall_mem_cons, List.forall_mem_cons]
    exact ⟨(hbase.node hp hshown _ _).edge (joins_picture hmem hc) _, hbase.node hp hshown _ _,
      hbelow hmem'⟩

/-- A right spine ends with a leaf that holds a key. -/
theorem exists_getLast?_rightSpine (hcap : 2 ≤ capacity) (hn : n.Balanced capacity h)
    (hne : n.keys ≠ []) :
    ∃ leaf ∈ n.preorder, n.rightSpine.getLast? = some leaf ∧ leaf.keys ≠ [] := by
  refine hn.rightSpine_induction (P := fun n spine => ∃ leaf ∈ n.preorder,
    spine.getLast? = some leaf ∧ leaf.keys ≠ []) ?leaf ?inner hcap hne
  case leaf =>
    intro n hne
    exact ⟨n, mem_preorder_self n, rfl, hne⟩
  case inner =>
    intro n c rest hc _ hbelow
    obtain ⟨leaf, hleaf, hlast, hkeys⟩ := hbelow
    exact ⟨leaf, mem_preorder_of_mem_children hc hleaf, by simpa using hlast, hkeys⟩

theorem grounded_predecessorFrames (hcap : 2 ≤ capacity) (hn : Renewed last m.ids n.ids)
    (hi : i < n.keys.length) (hmem : child ∈ n.children) (hchild : child.Balanced capacity h)
    (hne : child.keys ≠ []) (k : Key) (c : Counters) :
    Grounded last m (n.predecessorFrames child k i c) := by
  have hp := hn.picture.nodup
  have hself := displays_picture (mem_preorder_self n)
  have hbelow := mem_preorder_child (mem_preorder_self n) hmem
  have hshown := displays_picture hbelow
  have hslot := (Highlight.refers_none _).index hp hself hi ""
  refine (grounded_searchFrames hn k _ c).append (grounded_of_refers hn (List.forall_mem_map.2 ?_))
  intro step hstep
  refine ⟨rfl, ?_⟩
  rcases List.mem_append.1 hstep with hstep | hstep
  · simp only [List.mem_cons, List.not_mem_nil, or_false] at hstep
    rcases hstep with rfl | rfl | rfl
    · exact ((Highlight.refers_none _).node hp hself _ _).index hp hself hi _
    · exact (hslot.edge (joins_picture (mem_preorder_self n) hmem) _).node hp hshown _ _
    · exact hslot.node hp hshown _ _
  · exact refers_spineSteps hcap hchild hne hp hslot hbelow step hstep

theorem grounded_exchangeFrames (hcap : 2 ≤ capacity) (hn : Renewed last m.ids n.ids)
    (hi : i < n.keys.length) (hmem : child ∈ n.children) (hchild : child.Balanced capacity h)
    (hne : child.keys ≠ []) (c : Counters) : Grounded last m (n.exchangeFrames child i c) := by
  obtain ⟨leaf, hleaf, hlast, hkeys⟩ := exists_getLast?_rightSpine hcap hchild hne
  have hp := hn.picture.nodup
  have hself := displays_picture (mem_preorder_self n)
  have hshown := displays_picture
    (mem_preorder_trans (mem_preorder_child (mem_preorder_self n) hmem) hleaf)
  have hslot : leaf.keys.length - 1 < leaf.keys.length := by
    have := List.length_pos_iff.2 hkeys
    omega
  refine grounded_of_refers hn (List.forall_mem_singleton.2 ⟨rfl, ?_⟩)
  simp only [hlast, Option.getD_some]
  exact ((((Highlight.refers_none _).index hp hself hi _).node hp hself _ _).index hp hshown hslot
    _).node hp hshown _ _

/-! ## The way back up -/

section Step

variable {before after others : List Key} {left right : List (Node Key)} {c d : Node Key}
  {frames : List Frame}

/-- What is left of a child is shown within its parent, which then shows its repair. -/
theorem grounded_shrunk (ho : Opened capacity h before after left right) (hc : c.Filled capacity h)
    (hd : Shrunk capacity h ledger c d l) (hothers : others.length = after.length)
    (hne : before ++ after ≠ []) {id : Nat}
    (hids : Issued ledger.lastId (ids ⟨id, before ++ after, left ++ c :: right⟩))
    (hframes : Grounded ledger.lastId c frames) (shown : Node Key) :
    Grounded ledger.lastId ⟨id, before ++ after, left ++ c :: right⟩
      (frames.map (Frame.within (picture ⟨id, before ++ others, left ++ shown :: right⟩)
          before.length) ++
        repairFrames ⟨id, before ++ others, left ++ d :: right⟩ (capacity / 2) before.length
          l) := by
  obtain ⟨m, l', hm, hr⟩ := exists_repaired_of_shrunk ho hc hd hothers hne id
  have hall : ∀ e ∈ left ++ d :: right, e.Balanced capacity h := by
    rw [List.forall_mem_append, List.forall_mem_cons]
    exact ⟨fun e he => (ho.filled_left e he).1, hd.balanced, fun e he => (ho.filled_right e he).1⟩
  have hchild : (left ++ d :: right)[before.length]? = some d := by simp [← ho.left_length]
  have hdropped : Dropped ledger l (ids ⟨id, before ++ after, left ++ c :: right⟩)
      (ids ⟨id, before ++ others, left ++ d :: right⟩) := by
    simpa [ids_mk] using hd.dropped.within (id :: left.flatMap ids) (right.flatMap ids)
  have hlast : l.lastId = ledger.lastId := by
    obtain ⟨-, -, hlast, -⟩ := hdropped
    exact hlast
  have hrepair := grounded_repair (n := ⟨id, before ++ others, left ++ d :: right⟩) hall hchild hm
    hr.dropped (hdropped.issued hids)
  rw [hlast] at hrepair
  exact (hframes.within ho.left_length hids _ shown).append
    (hrepair.of_renewed (hdropped.renewed hids.nodup))

end Step

/-- The frames of taking out the largest key refer to what they show. -/
theorem grounded_removeMax (hcap : 2 ≤ capacity) (hn : n.Balanced capacity h) (hne : n.keys ≠ [])
    (hids : Issued ledger.lastId n.ids) :
    Grounded ledger.lastId n (n.removeMaxFrames (capacity / 2) ledger) := by
  induction h generalizing n with
  | zero =>
      obtain ⟨id, keys, children⟩ := n
      obtain rfl : children = [] := hn
      have hafter : Renewed ledger.lastId (ids (⟨id, keys, []⟩ : Node Key))
          (ids (⟨id, keys.dropLast, []⟩ : Node Key)) := by
        rw [ids_mk, ids_mk]
        exact .refl (List.nodup_singleton id)
      rw [removeMaxFrames_leaf _ _ _ hne]
      exact grounded_of_refers hafter
        (List.forall_mem_singleton.2 ⟨rfl, Highlight.refers_none _⟩)
  | succ h ih =>
      obtain ⟨left, c, hn', hopen, hc⟩ := hn.opened_last
      have hkeys := hc.keys_ne_nil hcap
      obtain ⟨e, he, hshrunk, -⟩ := exists_removeMax hcap hc.1 hkeys ledger
      rw [hn'] at hids ⊢
      have hstep := grounded_shrunk hopen hc hshrunk rfl (by simpa) hids
        (ih hc.1 hkeys hids.child) c
      simp only [List.append_nil] at hstep ⊢
      rwa [removeMaxFrames_opened hopen.left_length he]

/-- **The frames of a removal below a node** refer to what they show. -/
theorem grounded_remove (hcap : 2 ≤ capacity) (hn : n.Balanced capacity h)
    (hne : n.children ≠ [] → n.keys ≠ []) (hasc : Ascending n.inorder)
    (hids : Issued ledger.lastId n.ids) :
    Grounded ledger.lastId n (n.removeFrames (capacity / 2) k ledger) := by
  induction h generalizing n with
  | zero =>
      obtain ⟨id, keys, children⟩ := n
      obtain rfl : children = [] := hn
      exact grounded_leafRemoveFrames (.refl hids.nodup) k ledger
  | succ h ih =>
      have hkeys := hn.keys_ne_nil hne
      cases hslot : n.slotOf? k with
      | some i =>
          obtain ⟨before, a, after, hsplit, rfl, hsame⟩ := slotOf?_eq_some hslot
          obtain ⟨left, c, right, hn', hopen, hc⟩ := hn.opened hsplit
          have hkeys' := hc.keys_ne_nil hcap
          rw [hn'] at hslot hids ⊢
          obtain ⟨e, he, hshrunk, -⟩ := exists_removeMax hcap hc.1 hkeys' ledger
          have hself : Renewed ledger.lastId _ _ := .refl hids.nodup
          have hmem : c ∈ left ++ c :: right := by simp
          have hlt : before.length < (before ++ a :: after).length := by simp
          have hothers : (e.key :: after).length = (a :: after).length := rfl
          have hstep := grounded_shrunk hopen hc hshrunk hothers (by simp) hids
            (grounded_removeMax hcap hc.1 hkeys' hids.child) c
          rw [removeFrames_opened_separator hopen.left_length hslot he]
          exact ((grounded_predecessorFrames hcap hself hlt hmem hc.1 hkeys' k _).append
            (grounded_exchangeFrames hcap hself hlt hmem hc.1 hkeys' _)).append hstep
      | none =>
          obtain ⟨before, after, hsplit, hroute⟩ := exists_route k n.keys
          obtain ⟨left, c, right, hn', hopen, hc⟩ := hn.opened hsplit
          have hi := hopen.left_length
          rw [hn'] at hslot hasc hids ⊢
          rw [hsplit] at hkeys
          have hcasc : Ascending c.inorder := by
            rw [inorder_open hi] at hasc
            exact ascending_middle hasc
          have hkeys' := hc.keys_ne_nil hcap
          obtain ⟨r, hr, hshrunk, -⟩ := exists_remove (k := k) hcap hc.1 (fun _ => hkeys')
            hcasc ledger
          have hself : Renewed ledger.lastId _ _ := .refl hids.nodup
          have hstep := grounded_shrunk hopen hc hshrunk rfl hkeys hids
            (ih hc.1 (fun _ => hkeys') hcasc hids.child) c
          rw [removeFrames_opened_child hi hroute hslot hr]
          exact ((grounded_searchFrames hself k _ _).append
            (grounded_enterFrames hself _ _)).append hstep

/-- A root that gives way shows its only child. -/
theorem grounded_collapseFrames (hn : Renewed last m.ids n.ids) (ledger : Ledger) :
    Grounded last m (n.collapseFrames ledger) := by
  rw [collapseFrames]
  split
  · have hsub := n.ids_collapse_sublist
    have hcollapse : Renewed last m.ids n.collapse.ids :=
      ⟨hn.nodup.sublist hsub, fun id hid => hn.old_or_new id (hsub.subset hid)⟩
    refine grounded_of_refers hcollapse (List.forall_mem_singleton.2 ⟨rfl, ?_⟩)
    exact (Highlight.refers_none _).node hcollapse.picture.nodup
      (displays_picture (mem_preorder_self n.collapse)) _ _
  · exact grounded_nil last m

end Node

namespace Tree

variable {t : Tree}

/-- **The frames of a removal** from a valid tree refer to what they show. -/
theorem Valid.grounded_removeFrames (ht : t.Valid) (k : Key) :
    Grounded t.ledger.lastId t.root (t.removeFrames k) := by
  obtain ⟨h, hbal, -, hroot, hasc, -⟩ := t.valid_iff.1 ht
  have hcap := t.two_le_maxKeys
  obtain ⟨r, hr, hshrunk, -⟩ := Node.exists_remove (k := k) hcap hbal hroot hasc t.ledger
  rw [removeFrames, minKeys, hr, ok_toOption, Option.toList_some, List.flatMap_singleton]
  exact ((ht.grounded_announcement _).append
    (Node.grounded_remove hcap hbal hroot hasc ht.issued)).append
      (Node.grounded_collapseFrames (hshrunk.dropped.renewed ht.ids_nodup) _)

/-- An operation adds grounded frames to a recording; there are none for a key of the other kind. -/
theorem Valid.grounded_operate (ht : t.Valid) (op : Operation) :
    ∃ answer u frames, t.operate op = .ok (answer, u) ∧
      u.recording = t.recording.map (· ++ frames) ∧ Grounded t.ledger.lastId t.root frames := by
  obtain ⟨h, hbal, hlen, hroot, hasc, -⟩ := t.valid_iff.1 ht
  have hcap := t.two_le_maxKeys
  by_cases hk : op.key.kind = t.kind
  · cases op with
    | add k =>
        rw [Operation.key] at hk
        obtain ⟨g, -, hg, -⟩ := Node.ids_insert (k := k) (by omega) hbal hlen t.ledger
        have hadd : t.add k =
            .ok (t.advance (Growth.root g).1 (Growth.root g).2 fun _ => t.addFrames k) := by
          simp [add, hk, hg]
        exact ⟨_, _, t.addFrames k, by rw [operate, hadd], rfl, ht.grounded_addFrames k⟩
    | remove k =>
        rw [Operation.key] at hk
        obtain ⟨r, hr, -⟩ := Node.exists_remove (k := k) hcap hbal hroot hasc t.ledger
        have hremove : t.remove k = .ok (r.found,
            t.advance r.node.collapse r.ledger fun _ => t.removeFrames k) := by
          simp [remove, hk, minKeys, hr]
        exact ⟨_, _, t.removeFrames k, by rw [operate, hremove]; rfl, rfl,
          ht.grounded_removeFrames k⟩
  · have hnone : t.recording = t.recording.map (· ++ ([] : List Frame)) := by simp
    cases op with
    | add k =>
        rw [Operation.key] at hk
        exact ⟨.refused t.kind k.kind, t, [], by simp [operate, add, hk], hnone, grounded_nil _ _⟩
    | remove k =>
        rw [Operation.key] at hk
        exact ⟨.removed false, t, [], by simp [operate, remove, hk], hnone, grounded_nil _ _⟩

/-- **Every highlight refers to something shown.** Perform any operation on a valid tree that is
recording, with whatever it has recorded before. In the picture of every frame that the operation
adds no identity occurs twice; every emphasized node is found in it, with every emphasized slot and
gap of the node, and so is every emphasized edge; and exactly the emphasized slots and gaps have
messages, none being named twice. -/
theorem Valid.highlights_refer (ht : t.Valid) (op : Operation) :
    ∃ answer u frames, t.startRecording.operate op = .ok (answer, u) ∧
      u.recording = some (t.recording.getD [] ++ frames) ∧
      ∀ f ∈ frames, f.picture.ids.Nodup ∧
        (∀ id emphasis, (id, emphasis) ∈ f.highlight.nodes.entries →
          ∃ n ∈ f.picture.preorder, n.id = id ∧
            (∀ i ∈ emphasis.indices, i < n.keys.length) ∧
            (∀ i ∈ emphasis.separators, i ≤ n.keys.length) ∧
            emphasis.indices.Nodup ∧ emphasis.separators.Nodup ∧
            (∀ i, i ∈ emphasis.indices ↔ i ∈ emphasis.indexMessages.keys) ∧
            ∀ i, i ∈ emphasis.separators ↔ i ∈ emphasis.separatorMessages.keys) ∧
        ∀ name full, (name, full) ∈ f.highlight.edges.entries →
          ∃ n ∈ f.picture.preorder, ∃ c ∈ n.children, name = edgeName n.id c.id := by
  have hstart : t.startRecording.Valid := ht.withRecording _
  obtain ⟨answer, u, frames, hop, hrecording, hgrounded⟩ := hstart.grounded_operate op
  refine ⟨answer, u, frames, hop, hrecording, ?_⟩
  intro f hf
  obtain ⟨hids, hrefers⟩ := hgrounded f hf
  refine ⟨hids.nodup, ?_, ?_⟩
  · intro id emphasis hmem
    obtain ⟨slots, ⟨n, hn, hid, hslots⟩, hfits⟩ := hrefers.nodes _ hmem
    rw [← hslots] at hfits
    exact ⟨n, hn, hid, hfits.indices_lt, hfits.separators_le, hfits.indices_nodup,
      hfits.separators_nodup, hfits.mem_indices, hfits.mem_separators⟩
  · intro name full hmem
    obtain ⟨source, target, hname, n, hn, c, hc, rfl, rfl⟩ := hrefers.edges _ hmem
    exact ⟨n, hn, c, hc, hname⟩

/-- A merge of leaves and a big rotation above it, in a tree that is recording. -/
theorem highlights_refer_big_rotation :
    let t : Tree := ⟨2, .text, ⟨9, [.text "d"],
      [⟨7, [.text "b"], [⟨1, [.text "a"], []⟩, ⟨2, [.text "c"], []⟩]⟩,
        ⟨8, [.text "f", .text "h"],
          [⟨3, [.text "e"], []⟩, ⟨4, [.text "g"], []⟩, ⟨5, [.text "i"], []⟩]⟩]⟩,
      ⟨9, {}⟩, some [], by decide⟩
    t.Valid ∧ (t.removeFrames (.text "a")).length = 22 ∧
      ∀ f ∈ t.removeFrames (.text "a"), f.picture.ids.Nodup ∧
        (∀ id emphasis, (id, emphasis) ∈ f.highlight.nodes.entries →
          ∃ n ∈ f.picture.preorder, n.id = id ∧
            (∀ i ∈ emphasis.indices, i < n.keys.length) ∧
            (∀ i ∈ emphasis.separators, i ≤ n.keys.length) ∧
            emphasis.indices.Nodup ∧ emphasis.separators.Nodup ∧
            (∀ i, i ∈ emphasis.indices ↔ i ∈ emphasis.indexMessages.keys) ∧
            ∀ i, i ∈ emphasis.separators ↔ i ∈ emphasis.separatorMessages.keys) ∧
        ∀ name full, (name, full) ∈ f.highlight.edges.entries →
          ∃ n ∈ f.picture.preorder, ∃ c ∈ n.children, name = edgeName n.id c.id := by
  intro t
  let u : Tree := ⟨2, .text, ⟨9, [.text "f"],
    [⟨7, [.text "d"], [⟨1, [.text "b", .text "c"], []⟩, ⟨3, [.text "e"], []⟩]⟩,
      ⟨8, [.text "h"], [⟨4, [.text "g"], []⟩, ⟨5, [.text "i"], []⟩]⟩]⟩,
    ⟨9, ⟨0, 1, 0, 1⟩⟩, some (t.removeFrames (.text "a")), by decide⟩
  have ht : t.Valid := (check_eq_ok_iff t).1 (by decide)
  have hroot : t.root.remove t.minKeys (.text "a") t.ledger =
      .ok ⟨true, u.root, u.ledger⟩ := by decide
  have hremove : t.startRecording.operate (.remove (.text "a")) = .ok (.removed true, u) := by
    have hstart : t.startRecording = t := rfl
    rw [hstart, operate, remove, if_neg (by decide), hroot]
    rfl
  obtain ⟨answer, v, frames, hv, hrecording, hframes⟩ := ht.highlights_refer (.remove (.text "a"))
  obtain ⟨rfl, rfl⟩ := Prod.mk.inj (Except.ok.inj (hremove.symm.trans hv))
  obtain rfl : t.removeFrames (.text "a") = frames := Option.some.inj hrecording
  exact ⟨ht, by decide, hframes⟩

end Tree

end TracedTree
