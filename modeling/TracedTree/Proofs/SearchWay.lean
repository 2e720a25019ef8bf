import Mathlib.Data.List.Chain
import TracedTree.Proofs.SearchMarks

/-!
# Probes show the way of a search

The probes of an operation are those of the nodes that it searches, one node after the other: for an
insertion all nodes down to a leaf, for a removal those down to the first one that holds the key.
Nothing else that an operation shows is a probe. As no node occurs twice on the way, the probes that
bear an identity are those of one node, and `Node.Probed` tells how they stand to what the operation
does there.

## Main definitions

* `Node.wayOf n op`: the nodes that an operation searches, from a node down.
* `Node.Leads capacity op n c`: the operation goes on from `n` in its child `c`.

## Main statements

* `Tree.Valid.probes_show_way`: the probes of an operation show the way that it takes.
-/

namespace TracedTree

variable {capacity h : Nat} {k : Key} {ledger : Ledger} {op : Operation}

namespace Node

variable {n c : Node Key}

/-! ## The way -/

/-- The nodes down to the first one that holds the key. -/
def searchWay (k : Key) (n : Node Key) : List (Node Key) :=
  (n.descent k).take ((n.descent k).findIdx (fun m => (m.slotOf? k).isSome) + 1)

/-- The nodes that an operation searches. -/
def wayOf (n : Node Key) : Operation → List (Node Key)
  | .add k => n.descent k
  | .remove k => n.searchWay k

/-- The operation goes on from a node in one of its children. -/
def Leads (capacity : Nat) (op : Operation) (n c : Node Key) : Prop :=
  ∃ i, n.Goal capacity op (some (.gap i)) ∧ n.children[i]? = some c

theorem searchWay_held (hslot : (n.slotOf? k).isSome) : n.searchWay k = [n] := by
  rw [searchWay, descent_eq, List.findIdx_cons, hslot]
  rfl

theorem searchWay_leaf (k : Key) (id : Nat) (keys : List Key) :
    searchWay k ⟨id, keys, []⟩ = [⟨id, keys, []⟩] := by
  rw [searchWay, descent_leaf]
  exact List.take_of_length_le (by simp)

section Opened

variable {before after : List Key} {left right : List (Node Key)} {id : Nat}

theorem childIndex_opened (hroute : Route k before after) (id : Nat) (children : List (Node Key)) :
    childIndex ⟨id, before ++ after, children⟩ k = before.length := by
  rw [childIndex, hroute.takeWhile_eq]

theorem searchWay_opened (hopen : left.length = before.length) (hroute : Route k before after)
    (hslot : slotOf? ⟨id, before ++ after, left ++ c :: right⟩ k = none) :
    searchWay k ⟨id, before ++ after, left ++ c :: right⟩ =
      ⟨id, before ++ after, left ++ c :: right⟩ :: c.searchWay k := by
  rw [searchWay, descent_opened hopen hroute, List.findIdx_cons, hslot]
  rfl

end Opened

/-- An operation searches one node, or it goes on in a child. -/
theorem Balanced.wayOf_cases (hn : n.Balanced capacity h) (op : Operation) :
    n.wayOf op = [n] ∨ ∃ c i, h = i + 1 ∧ c.Balanced capacity i ∧ c ∈ n.children ∧
      n.Leads capacity op c ∧ n.wayOf op = n :: c.wayOf op := by
  cases h with
  | zero =>
      obtain ⟨id, keys, children⟩ := n
      obtain rfl : children = [] := hn
      cases op with
      | add k => exact .inl (descent_leaf k id keys)
      | remove k => exact .inl (searchWay_leaf k id keys)
  | succ h =>
      have hfits := hn.fits
      obtain ⟨before, after, hkeys, hroute⟩ := exists_route op.key n.keys
      obtain ⟨left, c, right, hn', hopen, hc⟩ := hn.opened hkeys
      have hchild : n.children[before.length]? = some c := by
        rw [hn']
        simp [← hopen.left_length]
      have hinner : n.children ≠ [] := by
        rw [hn']
        simp
      have hindex : n.childIndex op.key = before.length := by
        rw [hn', childIndex_opened hroute]
      have hmem : c ∈ n.children := List.mem_of_getElem? hchild
      cases op with
      | add k =>
          rw [Operation.key] at hindex hroute
          have hgoal : n.Goal capacity (.add k) _ := goal_add hfits k
          have hgap : n.insertGap k = before.length := by simp [insertGap, hinner, hindex]
          rw [hgap] at hgoal
          refine .inr ⟨c, h, rfl, hc.1, hmem, ⟨_, hgoal, hchild⟩, ?_⟩
          rw [hn']
          exact descent_opened hopen.left_length hroute n.id
      | remove k =>
          rw [Operation.key] at hindex hroute
          cases hslot : n.slotOf? k with
          | some i => exact .inl (searchWay_held (by simp [hslot]))
          | none =>
              have hgoal : n.Goal capacity (.remove k) _ := goal_remove hfits k
              have hplace : n.removePlace k = some (.gap before.length) := by
                simp [removePlace, hslot, hinner, hindex]
              rw [hplace] at hgoal
              refine .inr ⟨c, h, rfl, hc.1, hmem, ⟨_, hgoal, hchild⟩, ?_⟩
              rw [hn'] at hslot ⊢
              exact searchWay_opened hopen.left_length hroute hslot

/-- **The way** leads from a node to a child each time, and it passes nodes of the tree in order. -/
theorem Balanced.wayOf_spec (hn : n.Balanced capacity h) (op : Operation) :
    (n.wayOf op).head? = some n ∧ (n.wayOf op).IsChain (Leads capacity op) ∧
      (n.wayOf op).Sublist n.preorder := by
  induction h generalizing n with
  | zero =>
      rcases hn.wayOf_cases op with heq | ⟨c, i, hi, -⟩
      · rw [heq, preorder_eq]
        exact ⟨rfl, .singleton n, (List.nil_sublist _).cons_cons n⟩
      · cases hi
  | succ h ih =>
      rcases hn.wayOf_cases op with heq | ⟨c, i, hi, hc, hmem, hleads, heq⟩
      · rw [heq, preorder_eq]
        exact ⟨rfl, .singleton n, (List.nil_sublist _).cons_cons n⟩
      · obtain rfl := Nat.succ.inj hi
        obtain ⟨hhead, hchain, hsub⟩ := ih hc
        rw [heq, preorder_eq]
        refine ⟨rfl, hchain.cons fun d hd => ?_, (hsub.trans ?_).cons_cons n⟩
        · rw [hhead] at hd
          exact Option.some.inj hd ▸ hleads
        · rw [List.flatMap_def]
          exact List.sublist_flatten_of_mem (List.mem_map_of_mem hmem)

/-! ## The probes of an insertion -/

theorem probes_leafInsertFrames (hleaf : n.children = []) (k : Key) (c : Counters) :
    (n.leafInsertFrames capacity k c).flatMap Frame.probes = n.probesOf (.add k) := by
  have hreceived : Unprobed ((n.withKey k).receivedFrames capacity (n.slotFor k) false
      (Highlight.none.index n.id (n.slotFor k) "") c) :=
    unprobed_receivedFrames _ _ false (Highlight.quiet_none.index _ _ _) c
  have hframes : n.leafInsertFrames capacity k c =
      (if n.keys.isEmpty then [] else n.probeFrames k (n.slotFor k) c) ++
        (n.withKey k).receivedFrames capacity (n.slotFor k) false
          (Highlight.none.index n.id (n.slotFor k) "") c := rfl
  rw [hframes, List.flatMap_append, hreceived.probes_eq, List.append_nil]
  by_cases hempty : n.keys = []
  · simp [probesOf, hleaf, hempty]
  · simp [probesOf, hleaf, hempty, probes_probeFrames, insertGap]

theorem probes_descentFrames (hinner : n.children ≠ []) (k : Key) (c : Counters) :
    (n.descentFrames k (n.childIndex k) c).flatMap Frame.probes = n.probesOf (.add k) := by
  have henter : Unprobed (n.children[n.childIndex k]?.toList.map fun child =>
      (⟨n.picture, (Highlight.none.node child.id true "").edge n.id child.id true, c⟩ : Frame)) :=
    List.forall_mem_map.2 fun _ _ =>
      (Highlight.quiet_none.node _ true (by decide)).edge _ _ _
  rw [descentFrames, List.flatMap_append, henter.probes_eq, List.append_nil, probes_probeFrames]
  simp [probesOf, hinner, insertGap]

/-- **The probes of an insertion below a node** are those of the nodes on the way down. -/
theorem probes_insert (hcap : 0 < capacity) (hn : n.Balanced capacity h)
    (hlen : n.keys.length ≤ capacity) (ledger : Ledger) :
    (n.insertFrames capacity k ledger).flatMap Frame.probes =
      (n.descent k).flatMap (·.probesOf (.add k)) := by
  -- One node, from the probes of the child that it goes on in.
  have hstep : ∀ {h id before after left right c g},
      Opened capacity h before after left right → Route k before after →
      insert capacity k ledger c = .ok g →
      (c.insertFrames capacity k ledger).flatMap Frame.probes =
        (c.descent k).flatMap (·.probesOf (.add k)) →
      (insertFrames capacity k ledger ⟨id, before ++ after, left ++ c :: right⟩).flatMap
          Frame.probes =
        (descent k ⟨id, before ++ after, left ++ c :: right⟩).flatMap (·.probesOf (.add k)) := by
    intro h id before after left right c g hopen hroute hg hbelow
    have hsearch := probes_descentFrames (n := ⟨id, before ++ after, left ++ c :: right⟩)
      (by simp) k ledger.counters
    rw [childIndex_opened hroute] at hsearch
    rw [insertFrames_opened hopen.left_length hroute.takeWhile_eq id hg,
      descent_opened hopen.left_length hroute, List.flatMap_append, List.flatMap_append, hsearch,
      probes_within, hbelow, (unprobed_receiveFrames _ _ _ g).probes_eq, List.append_nil,
      List.flatMap_cons]
  have key := insert_induction ledger (k := k)
    (P := fun _ n g => n.insert capacity k ledger = .ok g ∧
      (n.insertFrames capacity k ledger).flatMap Frame.probes =
        (n.descent k).flatMap (·.probesOf (.add k)))
    ?leaf ?whole ?halves hcap hn hlen
  · obtain ⟨g, -, -, -, hprobes⟩ := key
    exact hprobes
  case leaf =>
    intro id keys _
    refine ⟨by rw [insert]; rfl, ?_⟩
    rw [descent_leaf, List.flatMap_singleton]
    exact probes_leafInsertFrames (n := ⟨id, keys, []⟩) rfl k ledger.counters
  case whole =>
    intro h id before after left right c d l hopen hc hroute _ hchild
    obtain ⟨hg, hbelow⟩ := hchild
    refine ⟨?_, hstep hopen hroute hg hbelow⟩
    rw [insert_opened hopen.left_length hroute.takeWhile_eq, hg, ok_map, receive,
      withChild_append hopen.left_length]
  case halves =>
    intro h id before after left right c d a e l hopen hc hroute _ _ _ hchild
    obtain ⟨hg, hbelow⟩ := hchild
    refine ⟨?_, hstep hopen hroute hg hbelow⟩
    rw [insert_opened hopen.left_length hroute.takeWhile_eq, hg, ok_map, receive,
      withHalves_append hopen.left_length]

/-! ## The probes of a removal -/

theorem probes_leafRemoveFrames (hleaf : n.children = []) (k : Key) (ledger : Ledger) :
    (n.leafRemoveFrames k ledger).flatMap Frame.probes = n.probesOf (.remove k) := by
  have hprobes : n.probesOf (.remove k) =
      n.sweep .slot (n.slotMessage k) ((n.slotOf? k).getD 0) n.keys.length := by
    simp [probesOf, hleaf]
  rw [hprobes, leafRemoveFrames, List.flatMap_append, probes_leafSearchFrames]
  refine (congrArg _ (Unprobed.probes_eq ?_)).trans (List.append_nil _)
  cases n.slotOf? k with
  | none =>
      have hplain := plain_append "Key " (k.label ++ " not found") (by decide) (by decide)
      rw [← String.append_assoc] at hplain
      exact unprobed_singleton.2 (Highlight.quiet_none.node _ true hplain)
  | some slot =>
      simp only [unprobed_cons]
      exact ⟨Highlight.quiet_none.index _ _ _, Highlight.quiet_none, unprobed_nil⟩

/-- **The probes of a removal below a node** are those of the nodes down to the key. -/
theorem probes_remove (hcap : 2 ≤ capacity) (hn : n.Balanced capacity h)
    (hne : n.children ≠ [] → n.keys ≠ []) (hasc : Ascending n.inorder) (ledger : Ledger) :
    (n.removeFrames (capacity / 2) k ledger).flatMap Frame.probes =
      (n.searchWay k).flatMap (·.probesOf (.remove k)) := by
  induction h generalizing n with
  | zero =>
      obtain ⟨id, keys, children⟩ := n
      obtain rfl : children = [] := hn
      rw [searchWay_leaf, List.flatMap_singleton]
      exact probes_leafRemoveFrames (n := ⟨id, keys, []⟩) rfl k ledger
  | succ h ih =>
      have hkeys := hn.keys_ne_nil hne
      cases hslot : n.slotOf? k with
      | some i =>
          obtain ⟨before, a, after, hsplit, rfl, -⟩ := slotOf?_eq_some hslot
          obtain ⟨left, c, right, hn', hopen, hc⟩ := hn.opened hsplit
          have hkeys' := hc.keys_ne_nil hcap
          obtain ⟨e, he, -⟩ := exists_removeMax hcap hc.1 hkeys' ledger
          rw [searchWay_held (by simp [hslot]), List.flatMap_singleton]
          rw [hn'] at hslot ⊢
          rw [removeFrames_opened_separator hopen.left_length hslot he, List.flatMap_append,
            List.flatMap_append, probes_predecessorFrames,
            (unprobed_exchangeFrames _ c _ _).probes_eq, List.append_nil,
            (unprobed_append.2 ⟨(unprobed_removeMax hcap hc.1 hkeys').within _ _,
              unprobed_repairFrames _ _ _ _⟩).probes_eq, List.append_nil]
          simp [probesOf, hslot]
      | none =>
          obtain ⟨before, after, hsplit, hroute⟩ := exists_route k n.keys
          obtain ⟨left, c, right, hn', hopen, hc⟩ := hn.opened hsplit
          rw [hn'] at hslot hasc ⊢
          rw [hsplit] at hkeys
          have hcasc : Ascending c.inorder := by
            rw [inorder_open hopen.left_length] at hasc
            exact ascending_middle hasc
          have hcne : c.children ≠ [] → c.keys ≠ [] := fun _ => hc.keys_ne_nil hcap
          obtain ⟨r, hr, -⟩ := exists_remove (k := k) hcap hc.1 hcne hcasc ledger
          rw [removeFrames_opened_child hopen.left_length hroute hslot hr,
            searchWay_opened hopen.left_length hroute hslot, List.flatMap_append,
            List.flatMap_append, List.flatMap_append, probes_searchFrames,
            (unprobed_enterFrames _ _ _).probes_eq, List.append_nil, probes_within,
            ih hc.1 hcne hcasc, (unprobed_repairFrames _ _ _ _).probes_eq, List.append_nil,
            List.flatMap_cons]
          simp [probesOf, hslot, childIndex_opened hroute]

/-- A leaf without keys has no probes. -/
theorem keys_ne_nil_of_mem_probesOf {p : Probe} (hleaf : n.keys = [] → n.children = [])
    (hp : p ∈ n.probesOf op) : n.keys ≠ [] := by
  intro hnil
  cases op with
  | add k => simp [probesOf, hnil, hleaf hnil] at hp
  | remove k => simp [probesOf, hnil, hleaf hnil, mem_sweep] at hp

/-- Where the nodes of a way have different identities, the probes with one of them are those of one
node. -/
theorem filter_probesOf {way : List (Node Key)} (hway : (way.map Node.id).Nodup) (hn : n ∈ way)
    (op : Operation) :
    (way.flatMap (·.probesOf op)).filter (·.id == n.id) = n.probesOf op := by
  induction way with
  | nil => cases hn
  | cons m way ih =>
      obtain ⟨hm, hway⟩ := List.nodup_cons.1 hway
      rw [List.flatMap_cons, List.filter_append]
      rcases List.mem_cons.1 hn with rfl | hn
      · have hself : (n.probesOf op).filter (·.id == n.id) = n.probesOf op :=
          List.filter_eq_self.2 fun p hp => by simp [id_of_mem_probesOf hp]
        have hothers : (way.flatMap (·.probesOf op)).filter (·.id == n.id) = [] := by
          refine List.filter_eq_nil_iff.2 fun p hp hid => hm ?_
          obtain ⟨c, hc, hp⟩ := List.mem_flatMap.1 hp
          rw [beq_iff_eq, id_of_mem_probesOf hp] at hid
          exact hid ▸ List.mem_map_of_mem hc
        rw [hself, hothers, List.append_nil]
      · have hne : n.id ≠ m.id := fun hid => hm (hid ▸ List.mem_map_of_mem hn)
        have hnone : (m.probesOf op).filter (·.id == n.id) = [] := by
          refine List.filter_eq_nil_iff.2 fun p hp hid => hne ?_
          rw [beq_iff_eq, id_of_mem_probesOf hp] at hid
          exact hid.symm
        rw [hnone, List.nil_append, ih hway hn]

end Node

namespace Tree

variable {t : Tree}

theorem Valid.probes_addFrames (ht : t.Valid) (k : Key) :
    (t.addFrames k).flatMap Frame.probes =
      (t.root.wayOf (.add k)).flatMap (·.probesOf (.add k)) := by
  obtain ⟨h, hbal, hlen, -⟩ := t.valid_iff.1 ht
  have hcap := t.two_le_maxKeys
  obtain ⟨g, -, hg, -⟩ := Node.ids_insert (k := k) (by omega) hbal hlen t.ledger
  have hstart := t.unprobed_announcement
    (plain_append "Inserting " k.label (by decide) (by decide))
  rw [addFrames, hg, ok_toOption, Option.toList_some, List.flatMap_singleton,
    ← List.singleton_append, List.append_assoc, List.flatMap_append, List.flatMap_append,
    hstart.probes_eq, List.nil_append, (Growth.unprobed_rootFrames g).probes_eq, List.append_nil]
  exact Node.probes_insert (by omega) hbal hlen t.ledger

theorem Valid.probes_removeFrames (ht : t.Valid) (k : Key) :
    (t.removeFrames k).flatMap Frame.probes =
      (t.root.wayOf (.remove k)).flatMap (·.probesOf (.remove k)) := by
  obtain ⟨h, hbal, -, hroot, hasc, -⟩ := t.valid_iff.1 ht
  have hcap := t.two_le_maxKeys
  obtain ⟨r, hr, -⟩ := Node.exists_remove (k := k) hcap hbal hroot hasc t.ledger
  have hstart := t.unprobed_announcement
    (plain_append "Removing " k.label (by decide) (by decide))
  rw [removeFrames, minKeys, hr, ok_toOption, Option.toList_some, List.flatMap_singleton,
    ← List.singleton_append, List.append_assoc, List.flatMap_append, List.flatMap_append,
    hstart.probes_eq, List.nil_append, (Node.unprobed_collapseFrames _ _).probes_eq,
    List.append_nil]
  exact Node.probes_remove hcap hbal hroot hasc t.ledger

/-- Only a root may be without keys, and then it is a leaf. -/
theorem Valid.leaf_of_keys_eq_nil (ht : t.Valid) :
    ∀ n ∈ t.root.preorder, n.keys = [] → n.children = [] := by
  intro n hn hnil
  rw [Node.preorder_eq] at hn
  rcases List.mem_cons.1 hn with rfl | hn
  · by_contra hinner
    exact ht.root_keys hinner hnil
  · have hfull := ht.occupancy n hn
    have hcap := t.two_le_maxKeys
    rw [hnil, List.length_nil, minKeys] at hfull
    omega

/-- The frames that an operation records, and the nodes that it searches. A key of the other kind is
not searched. -/
theorem Valid.exists_way (ht : t.Valid) (op : Operation) :
    ∃ answer u frames way, t.operate op = .ok (answer, u) ∧
      u.recording = t.recording.map (· ++ frames) ∧ (way = [] ∨ way = t.root.wayOf op) ∧
      frames.flatMap Frame.probes = way.flatMap (·.probesOf op) := by
  obtain ⟨h, hbal, hlen, hroot, hasc, -⟩ := t.valid_iff.1 ht
  have hcap := t.two_le_maxKeys
  by_cases hk : op.key.kind = t.kind
  · cases op with
    | add k =>
        rw [Operation.key] at hk
        obtain ⟨g, -, hg, -⟩ := Node.ids_insert (k := k) (by omega) hbal hlen t.ledger
        have hadd : t.add k =
            .ok (t.advance (Growth.root g).1 (Growth.root g).2 fun _ => t.addFrames k) := by
          simp [add, hk, hg]
        exact ⟨_, _, t.addFrames k, _, by rw [operate, hadd], rfl, .inr rfl,
          ht.probes_addFrames k⟩
    | remove k =>
        rw [Operation.key] at hk
        obtain ⟨r, hr, -⟩ := Node.exists_remove (k := k) hcap hbal hroot hasc t.ledger
        have hremove : t.remove k = .ok (r.found,
            t.advance r.node.collapse r.ledger fun _ => t.removeFrames k) := by
          simp [remove, hk, minKeys, hr]
        exact ⟨_, _, t.removeFrames k, _, by rw [operate, hremove]; rfl, rfl, .inr rfl,
          ht.probes_removeFrames k⟩
  · have hnone : t.recording = t.recording.map (· ++ ([] : List Frame)) := by simp
    cases op with
    | add k =>
        rw [Operation.key] at hk
        exact ⟨.refused t.kind k.kind, t, [], [], by simp [operate, add, hk], hnone, .inl rfl, rfl⟩
    | remove k =>
        rw [Operation.key] at hk
        exact ⟨.removed false, t, [], [], by simp [operate, remove, hk], hnone, .inl rfl, rfl⟩

/-- **Probes show the way that is taken.** Perform any operation on a valid tree that is recording.
The probes in the frames that it adds are those of nodes on a way from the root, on which it goes on
in a child each time. In each of these nodes they run from the right end without gaps to the place
at which the operation really goes on, be it the gap of the child, the gap where the key is put in
or the slot where it is found. There the last probe shows a check mark; in a leaf without the key
they run to its left end and none does. All probes before the last one show a question mark, unless
an insertion passes an inner node with a separator that equals the key: the gap right of such a
separator shows a check mark as well. -/
theorem Valid.probes_show_way (ht : t.Valid) (op : Operation) :
    ∃ (answer : Answer) (u : Tree) (frames : List Frame) (way : List (Node Key)),
      t.startRecording.operate op = .ok (answer, u) ∧
      u.recording = some (t.recording.getD [] ++ frames) ∧
      (∀ n ∈ way.head?, n = t.root) ∧ way.IsChain (Node.Leads t.maxKeys op) ∧
      (∀ p ∈ frames.flatMap Frame.probes, ∃ n ∈ way, n.id = p.id ∧ n.keys ≠ []) ∧
      ∀ n ∈ way, n.keys ≠ [] → ∃ goal, n.Probed t.maxKeys op goal
        ((frames.flatMap Frame.probes).filter (·.id == n.id)) := by
  obtain ⟨h, hbal, -⟩ := t.valid_iff.1 ht
  have hstart : t.startRecording.Valid := ht.withRecording _
  obtain ⟨answer, u, frames, way, hop, hrecording, hway, hprobes⟩ := hstart.exists_way op
  have hspec : (∀ n ∈ way.head?, n = t.root) ∧ way.IsChain (Node.Leads t.maxKeys op) ∧
      way.Sublist t.root.preorder := by
    rcases hway with rfl | rfl
    · exact ⟨nofun, .nil, List.nil_sublist _⟩
    · obtain ⟨hhead, hchain, hsub⟩ := hbal.wayOf_spec op
      refine ⟨?_, hchain, hsub⟩
      intro n hn
      exact (Option.some.inj (hhead.symm.trans hn)).symm
  obtain ⟨hhead, hchain, hsub⟩ := hspec
  have hids : (way.map Node.id).Nodup := ht.ids_nodup.sublist (hsub.map _)
  refine ⟨answer, u, frames, way, hop, hrecording, hhead, hchain, ?_, ?_⟩
  · intro p hp
    rw [hprobes] at hp
    obtain ⟨n, hn, hp⟩ := List.mem_flatMap.1 hp
    exact ⟨n, hn, (Node.id_of_mem_probesOf hp).symm,
      Node.keys_ne_nil_of_mem_probesOf (ht.leaf_of_keys_eq_nil n (hsub.subset hn)) hp⟩
  · intro n hn hne
    have hmem := hsub.subset hn
    rw [hprobes, Node.filter_probesOf hids hn]
    exact Node.probed_probesOf (ht.fits n hmem) (ht.ascending_node n hmem) hne op

/-- A key that equals the separator of the root. -/
theorem probes_show_way_two_levels :
    let t : Tree := ⟨2, .text, ⟨3, [.text "b"], [⟨1, [.text "a"], []⟩, ⟨2, [.text "c"], []⟩]⟩,
      ⟨3, {}⟩, none, by decide⟩
    t.Valid ∧ t.root.Repeats (.add (.text "b")) ∧
    ∃ (answer : Answer) (u : Tree) (frames : List Frame) (way : List (Node Key)),
      t.startRecording.operate (.add (.text "b")) = .ok (answer, u) ∧
      u.recording = some (t.recording.getD [] ++ frames) ∧
      (∀ n ∈ way.head?, n = t.root) ∧ way.IsChain (Node.Leads t.maxKeys (.add (.text "b"))) ∧
      (∀ p ∈ frames.flatMap Frame.probes, ∃ n ∈ way, n.id = p.id ∧ n.keys ≠ []) ∧
      ∀ n ∈ way, n.keys ≠ [] → ∃ goal, n.Probed t.maxKeys (.add (.text "b")) goal
        ((frames.flatMap Frame.probes).filter (·.id == n.id)) := by
  intro t
  have ht : t.Valid := (check_eq_ok_iff t).1 (by decide)
  exact ⟨ht, ⟨_, rfl, by decide, _, List.mem_cons_self, by decide⟩,
    ht.probes_show_way (.add (.text "b"))⟩

/-- In a node with a separator that equals the inserted key, the first of two probes shows a check
mark, although the insertion goes on in the child at the place of the second one. -/
theorem exists_check_before_last :
    ∃ (t u : Tree) (k : Key) (frames : List Frame), t.Valid ∧
      t.startRecording.operate (.add k) = .ok (.added, u) ∧ u.recording = some frames ∧
      t.root.childIndex k = 0 ∧
      (frames.flatMap Frame.probes).filter (·.id == t.root.id) =
        [⟨t.root.id, .gap 1, "b ✓"⟩, ⟨t.root.id, .gap 0, "b ✓"⟩] := by
  let t : Tree := ⟨2, .text, ⟨3, [.text "b"], [⟨1, [.text "a"], []⟩, ⟨2, [.text "c"], []⟩]⟩,
    ⟨3, {}⟩, none, by decide⟩
  let u : Tree := ⟨2, .text, ⟨3, [.text "b"],
    [⟨1, [.text "a", .text "b"], []⟩, ⟨2, [.text "c"], []⟩]⟩, ⟨3, {}⟩,
    some (t.addFrames (.text "b")), by decide⟩
  exact ⟨t, u, .text "b", t.addFrames (.text "b"), (check_eq_ok_iff t).1 (by decide), rfl, rfl,
    by decide, by decide +kernel⟩

end Tree

end TracedTree
