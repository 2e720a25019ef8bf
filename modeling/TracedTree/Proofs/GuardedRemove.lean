import TracedTree.Proofs.GuardedInsert
import TracedTree.Proofs.GuardedRepair
import TracedTree.Proofs.RemoveHighlights

/-!
# A guarded removal never fails

Below a node a guarded removal does what the removal does and shows its frames. The walk to a
predecessor changes nothing and ends at a leaf, which the layers between give back as the node. On
the way back up each parent repairs a child that has shrunk by at most one key, so that a neighbour
can help.

## Main statements

* `Tree.Valid.run_guarded`: on a valid tree every guarded operation does what the operation does.
-/

namespace TracedTree

/-- What a node loses the tree around it loses as well. -/
theorem Dropped.issued_plug {n m : Node Key} {l l' : Ledger} (h : Dropped l l' n.ids m.ids)
    (ctx : List (Layer Key)) (hids : Issued l.lastId (plug ctx n).ids) :
    Issued l'.lastId (plug ctx m).ids := by
  obtain ⟨left, right, hplug⟩ := exists_ids_plug ctx
  rw [hplug] at hids ⊢
  exact (h.within left right).issued hids

namespace Guarded

variable {D : Prop} {capacity h : Nat} {ctx : List (Layer Key)} {n : Node Key} {l : Ledger}
  {k : Key}

/-! ## The search -/

theorem gapRange_eq {gap : Nat} (hgap : gap ≤ n.keys.length) (k : Key) :
    gapRange n gap k = .ok (n.gapRange gap k) := by
  cases gap with
  | zero => rfl
  | succ slot =>
      have hentry : n.keys[slot]? = some n.keys[slot] := List.getElem?_eq_getElem hgap
      simp [gapRange, Node.gapRange, entry, hentry]

theorem leads_recordSearch (k : Key) (last : Nat) :
    Leads D capacity ctx (recordSearch (pathOf ctx) k last) n l (pure ()) n l
      (n.searchFrames k last l.counters) := by
  refine leads_nodeAt.next (leads_forM ?_)
  intro place hplace
  obtain ⟨hlow, hhigh⟩ := List.mem_range'_1.1 (List.mem_reverse.1 hplace)
  by_cases hodd : place % 2 = 1
  · have hslot : (place - 1) / 2 = place / 2 := by omega
    rw [Node.searchStep, if_pos hodd, if_pos hodd]
    refine (leads_lift (less_eq (by omega))).next ?_
    rw [hslot]
    exact leads_recordLive _
  · have hrange : gapRange n (place / 2) k = .ok (n.gapRange (place / 2) k) :=
      gapRange_eq (by omega) k
    rw [Node.searchStep, if_neg hodd, if_neg hodd]
    exact (leads_lift hrange).next (leads_recordLive _)

theorem leads_removeFromLeaf (n : Node Key) (k : Key) (l : Ledger) :
    Leads D capacity ctx (removeFromLeaf (pathOf ctx) k) n l (pure (n.removeFromLeaf k l).found)
      (n.removeFromLeaf k l).node (n.removeFromLeaf k l).ledger (n.leafRemoveFrames k l) := by
  rw [Node.leafRemoveFrames]
  refine leads_nodeAt.next ?_
  refine Leads.bind (leads_whenRecording (leads_forM fun slot _ => leads_recordLive _)) ?_
  cases hslot : n.slotOf? k with
  | none =>
      have hremoval : n.removeFromLeaf k l = ⟨false, n, l⟩ := by
        rw [Node.removeFromLeaf, hslot]
      rw [hremoval]
      exact (leads_whenRecording (leads_recordLive _)).rest (.refl D capacity ctx _ n l)
  | some slot =>
      let m : Node Key := { n with keys := n.keys.eraseIdx slot }
      have hremoval : n.removeFromLeaf k l = ⟨true, m, l⟩ := by
        rw [Node.removeFromLeaf, hslot]
      have hremove : removeAt n.keys slot = .ok m.keys := by
        simp [removeAt, m, Node.slotOf?_lt hslot]
      rw [hremoval]
      refine (leads_whenRecording (leads_recordLive _)).bind ?_
      refine Leads.next (leads_alterAt (m := m) ?_) ?_
      · simp [hremove, m]
      exact (leads_whenRecording (leads_recordLive _)).rest (.refl D capacity ctx _ _ l)

/-! ## The predecessor -/

/-- Frames of a child that stays as it is are frames of its parent as it is. -/
theorem map_within_close (u : Layer Key) (c : Node Key) (steps : List Highlight) (d : Counters) :
    (steps.map fun step => (⟨c.picture, step, d⟩ : Frame)).map
        (Frame.within (u.close c).picture u.left.length) =
      steps.map fun step => ⟨(u.close c).picture, step, d⟩ := by
  have hsame : (u.close c).picture.withChild u.left.length c.picture = (u.close c).picture := by
    rw [Layer.close, Node.picture_mk, List.map_append, List.map_cons,
      Node.withChild_append (List.length_map _)]
  simp [Frame.within, hsame]

/-- The node at the end of the way down from a node. -/
theorem leads_nodeBelow (below : List (Layer Key)) (leaf : Node Key) :
    Leads D capacity ctx (nodeAt (pathOf (below ++ ctx))) (plug below leaf) l (pure leaf)
      (plug below leaf) l [] := by
  refine .of_run_eq fun t _ before => ?_
  have hlook : lookUp (pathOf (below ++ ctx)) (t.focus ctx (plug below leaf) l before).root =
      .ok leaf := by
    rw [Tree.focus, ← plug_append]
    exact lookUp_plug _ leaf
  simp only [nodeAt, StateT.run_bind, StateT.run_get, pure_bind, hlook]
  rfl

/-- The walk to a predecessor leaves the node as it is and ends at the last leaf, which holds the
largest key. -/
theorem leads_extractMax (D : Prop) (hcap : 2 ≤ capacity) (base : Highlight) (l : Ledger)
    (hn : n.Balanced capacity h) (hne : n.keys ≠ []) {largest : Key}
    (hlast : n.inorder.getLast? = some largest) :
    ∃ below leaf, plug below leaf = n ∧ n.rightSpine.getLast? = some leaf ∧
      leaf.keys.getLast? = some largest ∧ ∀ ctx,
        Leads D capacity ctx (extractMax base (h + 1) (pathOf ctx)) n l
          (pure (largest, pathOf (below ++ ctx))) n l
          ((Node.spineSteps base n.rightSpine).map fun step => ⟨n.picture, step, l.counters⟩) := by
  induction h generalizing n with
  | zero =>
      obtain ⟨id, keys, children⟩ := n
      obtain rfl : children = [] := hn
      rw [Node.inorder_leaf] at hlast
      refine ⟨[], ⟨id, keys, []⟩, rfl, rfl, hlast, fun ctx => ?_⟩
      have hpos := List.length_pos_of_mem (List.mem_of_getLast? hlast)
      have hleaf : Node.isLeaf ⟨id, keys, []⟩ = true := rfl
      refine leads_nodeAt.next ?_
      rw [if_pos hleaf, hlast]
      refine Leads.rest (leads_whenRecording ?_) (.refl D capacity ctx _ _ l)
      exact (leads_lift (less_eq hpos)).next (leads_recordLive _)
  | succ h ih =>
      obtain ⟨id, keys, children⟩ := n
      obtain ⟨left, c, hn', hopen, hc⟩ := hn.opened_last
      obtain rfl : children = left ++ [c] := by simpa using hn'
      have hkeys := hc.keys_ne_nil hcap
      have hclast : c.inorder.getLast? = some largest := by
        have hopened := @Node.inorder_open _ id keys [] left [] hopen.left_length c
        have hcne : c.inorder ≠ [] := fun hnil =>
          hkeys (List.sublist_nil.1 (hnil ▸ hc.1.fits.keys_sublist_inorder))
        rw [List.append_nil] at hopened
        rw [hopened, List.map_nil, Node.weave_cons_nil] at hlast
        simpa [hcne] using hlast
      obtain ⟨below, leaf, hplug, hspine, hleaf, hwalk⟩ := ih hc.1 hkeys hclast
      obtain ⟨rest, hrest⟩ := c.exists_rightSpine
      refine ⟨below ++ [⟨id, keys, left, []⟩], leaf, ?_, ?_, hleaf, fun ctx => ?_⟩
      · rw [plug_append, hplug]
        rfl
      · rw [Node.rightSpine_append, List.getLast?_cons, hspine]
        rfl
      · have hinner : Node.isLeaf ⟨id, keys, left ++ [c]⟩ = false := by simp [Node.isLeaf]
        have hlen : (left ++ [c]).length - 1 = left.length := by simp
        have hchild : entry (left ++ [c]) left.length = .ok c := entry_eq_ok (by simp)
        have hbelow := Leads.within (hwalk (⟨id, keys, left, []⟩ :: ctx)) c
        rw [map_within_close] at hbelow
        refine leads_nodeAt.next ?_
        rw [hinner, if_neg Bool.false_ne_true]
        refine (leads_lift (less_eq (by simp))).next ?_
        rw [hlen]
        refine (leads_lift hchild).next ?_
        rw [Node.rightSpine_append, hrest, Node.spineSteps, ← hrest, List.map_cons, List.map_cons,
          List.append_assoc]
        change Leads _ _ _ _ _ _ _ _ _ ([_, _] ++ _)
        exact Leads.bind (leads_whenRecording ((leads_recordLive _).bind (leads_recordLive _)))
          hbelow

/-! ## The way back up -/

/-- A child that has shrunk is repaired by its parent. -/
theorem leads_rebalance_opened {before after others : List Key} {left right : List (Node Key)}
    {c d m : Node Key} {l' l'' : Ledger} {id : Nat}
    (ho : Node.Opened capacity h before after left right) (hc : c.Filled capacity h)
    (hd : Node.Shrunk capacity h l c d l')
    (hm : Node.repair ⟨id, before ++ others, left ++ d :: right⟩ (capacity / 2) before.length l' =
      .ok (m, l'')) (ctx : List (Layer Key))
    (hids : D → Issued l.lastId (plug ctx ⟨id, before ++ after, left ++ c :: right⟩).ids) :
    Leads D capacity ctx (rebalance (pathOf ctx) left.length)
      ⟨id, before ++ others, left ++ d :: right⟩ l' (pure ()) m l''
      (Node.repairFrames ⟨id, before ++ others, left ++ d :: right⟩ (capacity / 2) before.length
        l') := by
  have hfits : ∀ e ∈ left ++ d :: right, e.Fits := by
    rw [List.forall_mem_append, List.forall_mem_cons]
    exact ⟨fun e he => (ho.filled_left e he).1.fits, hd.balanced.fits,
      fun e he => (ho.filled_right e he).1.fits⟩
  have hissued : D → Issued l'.lastId
      (plug ctx ⟨id, before ++ others, left ++ d :: right⟩).ids := by
    intro hD
    refine hd.dropped.issued_plug (⟨id, before ++ others, left, right⟩ :: ctx) ?_
    exact (hids hD).plug_perm (by rw [Layer.close, Node.ids_mk, Node.ids_mk])
  have hchild : (left ++ d :: right)[before.length]? = some d := by simp [← ho.left_length]
  rw [ho.left_length]
  exact leads_rebalance hfits hissued hchild (Nat.le_trans hc.2.1 hd.le_length) hm

/-- Taking out the largest key below a node. -/
theorem leads_removeMax (hcap : 2 ≤ capacity) (hn : n.Balanced capacity h) (hne : n.keys ≠ [])
    {e : Extraction} (he : n.removeMax (capacity / 2) l = .ok e) (ctx : List (Layer Key))
    (hids : D → Issued l.lastId (plug ctx n).ids) :
    Leads D capacity ctx (removeMax (h + 1) (pathOf ctx)) n l (pure ()) e.node e.ledger
      (n.removeMaxFrames (capacity / 2) l) := by
  induction h generalizing n e ctx with
  | zero =>
      obtain ⟨id, keys, children⟩ := n
      obtain rfl : children = [] := hn
      obtain rfl := Except.ok.inj ((Node.removeMax_leaf _ l id hne).symm.trans he)
      rw [Node.removeMaxFrames_leaf _ _ _ hne]
      refine leads_nodeAt.next ?_
      exact Leads.next (leads_alterAt rfl) (leads_whenRecording (leads_recordLive _))
  | succ h ih =>
      obtain ⟨id, keys, children⟩ := n
      obtain ⟨left, c, hn', hopen, hc⟩ := hn.opened_last
      obtain rfl : children = left ++ [c] := by simpa using hn'
      have hkeys := hc.keys_ne_nil hcap
      obtain ⟨e', he', hshrunk, -⟩ := Node.exists_removeMax hcap hc.1 hkeys l
      have hothers : ([] : List Key).length = ([] : List Key).length := rfl
      obtain ⟨m, l', hm, -⟩ := Node.exists_repaired_of_shrunk hopen hc hshrunk hothers (by simpa) id
      have hrebalance := leads_rebalance_opened (D := D) hopen hc hshrunk hm ctx (by simpa)
      have hbelow := Leads.within (ih hc.1 hkeys he' (⟨id, keys, left, []⟩ :: ctx) hids) c
      have hinner : Node.isLeaf ⟨id, keys, left ++ [c]⟩ = false := by simp [Node.isLeaf]
      have hlen : (left ++ [c]).length - 1 = left.length := by simp
      simp only [List.append_nil] at hm hrebalance
      obtain rfl := Except.ok.inj ((Node.removeMax_opened hopen.left_length he' hm).symm.trans he)
      rw [Node.removeMaxFrames_opened hopen.left_length he', ← hopen.left_length]
      rw [← hopen.left_length] at hrebalance
      refine leads_nodeAt.next ?_
      rw [hinner, if_neg Bool.false_ne_true]
      refine (leads_lift (less_eq (by simp))).next ?_
      rw [hlen]
      exact hbelow.bind hrebalance

/-! ## Finding the key -/

section Inner

variable {id : Nat} {before after : List Key} {left right : List (Node Key)} {a : Key}
  {c m : Node Key} {e : Extraction} {l' : Ledger}

/-- A key in an inner node gives its place to its predecessor. -/
theorem leads_removeInternal (hcap : 2 ≤ capacity)
    (ho : Node.Opened capacity h before (a :: after) left right) (hc : c.Filled capacity h)
    (he : c.removeMax (capacity / 2) l = .ok e)
    (hm : Node.repair ⟨id, before ++ e.key :: after, left ++ e.node :: right⟩ (capacity / 2)
      before.length e.ledger = .ok (m, l'))
    (hids : D → Issued l.lastId (plug ctx ⟨id, before ++ a :: after, left ++ c :: right⟩).ids) :
    Leads D capacity ctx (removeInternal (h + 1) (pathOf ctx) k before.length)
      ⟨id, before ++ a :: after, left ++ c :: right⟩ l (pure ()) m l'
      (Node.predecessorFrames ⟨id, before ++ a :: after, left ++ c :: right⟩ c k before.length
          l.counters ++
        Node.exchangeFrames ⟨id, before ++ a :: after, left ++ c :: right⟩ c before.length
          l.counters ++
        ((c.removeMaxFrames (capacity / 2) l).map (Frame.within
            (Node.picture ⟨id, before ++ e.key :: after, left ++ c :: right⟩) before.length) ++
          Node.repairFrames ⟨id, before ++ e.key :: after, left ++ e.node :: right⟩ (capacity / 2)
            before.length e.ledger)) := by
  have hkeys := hc.keys_ne_nil hcap
  obtain ⟨e', he', hshrunk, hinorder⟩ := Node.exists_removeMax hcap hc.1 hkeys l
  obtain rfl : e = e' := Except.ok.inj (he.symm.trans he')
  have hlast : c.inorder.getLast? = some e.key := by simp [hinorder]
  have hrebalance := leads_rebalance_opened ho hc hshrunk hm ctx hids
  rw [← ho.left_length] at hrebalance ⊢
  let u : Layer Key := ⟨id, before ++ a :: after, left, right⟩
  let v : Layer Key := ⟨id, before ++ e.key :: after, left, right⟩
  obtain ⟨below, leaf, rfl, hspine, hleaf, hwalk⟩ := leads_extractMax D hcap
    (Highlight.none.index id left.length "") l hc.1 hkeys hlast
  have hchild : entry (left ++ plug below leaf :: right) left.length = .ok (plug below leaf) :=
    entry_eq_ok (by simp)
  have hset : setAt u.keys left.length e.key = .ok v.keys := by
    simp [setAt, u, v, ho.left_length]
  have hstep := Leads.within (hwalk (u :: ctx)) (plug below leaf)
  rw [map_within_close] at hstep
  have hread : Leads D capacity ctx (nodeAt (pathOf (below ++ u :: ctx)))
      (u.close (plug below leaf)) l (pure leaf) (u.close (plug below leaf)) l [] :=
    Leads.within (leads_nodeBelow below leaf) leaf
  have hissued : D → Issued l.lastId (plug (v :: ctx) (plug below leaf)).ids := fun hD =>
    (hids hD).plug_perm (by rw [Layer.close, Node.ids_mk, Node.ids_mk])
  have hbelow := Leads.within (leads_removeMax hcap hc.1 hkeys he (v :: ctx) hissued)
    (plug below leaf)
  rw [Node.predecessorFrames, Node.exchangeFrames, hspine, Option.getD_some, hleaf,
    Option.elim_some, List.map_append, ← List.append_assoc (Node.searchFrames _ _ _ _),
    List.append_assoc, List.append_assoc]
  refine leads_nodeAt.next ?_
  refine Leads.bind (leads_whenRecording ?found) ?_
  case found =>
    refine (leads_lift hchild).next ?_
    refine (leads_recordSearch k _).bind ?_
    simp only [List.map_cons, List.map_nil]
    exact (leads_recordLive _).bind ((leads_recordLive _).bind (leads_recordLive _))
  refine hstep.bind ?_
  refine Leads.bind (leads_whenRecording (hread.next (leads_recordLive _))) ?_
  refine Leads.next (leads_alterAt (m := v.close (plug below leaf)) ?_) ?_
  · simp only [Layer.close, hset]
    rfl
  exact hbelow.bind hrebalance

/-- Where no separator equals the key, the child that they lead to is searched and repaired. -/
theorem leads_removeFrom_child {r : Removal} (ho : Node.Opened capacity h before after left right)
    (hc : c.Filled capacity h) (hroute : Node.Route k before after)
    (hasc : Ascending (before ++ after))
    (hslot : Node.slotOf? ⟨id, before ++ after, left ++ c :: right⟩ k = none)
    (hshrunk : Node.Shrunk capacity h l c r.node r.ledger)
    (hm : Node.repair ⟨id, before ++ after, left ++ r.node :: right⟩ (capacity / 2) before.length
      r.ledger = .ok (m, l')) {frames : List Frame}
    (hbelow : Leads D capacity (⟨id, before ++ after, left, right⟩ :: ctx)
      (removeFrom k (h + 1) (left.length :: pathOf ctx)) c l (pure r.found) r.node r.ledger
      frames)
    (hids : D → Issued l.lastId (plug ctx ⟨id, before ++ after, left ++ c :: right⟩).ids) :
    Leads D capacity ctx (removeFrom k (h + 2) (pathOf ctx))
      ⟨id, before ++ after, left ++ c :: right⟩ l (pure r.found) m l'
      (Node.searchFrames ⟨id, before ++ after, left ++ c :: right⟩ k (2 * before.length)
          l.counters ++
        Node.enterFrames ⟨id, before ++ after, left ++ c :: right⟩ before.length l.counters ++
        (frames.map (Frame.within (Node.picture ⟨id, before ++ after, left ++ c :: right⟩)
            before.length) ++
          Node.repairFrames ⟨id, before ++ after, left ++ r.node :: right⟩ (capacity / 2)
            before.length r.ledger)) := by
  have hrebalance := leads_rebalance_opened ho hc hshrunk hm ctx hids
  have hindex := childFor_eq (n := ⟨id, before ++ after, left ++ c :: right⟩) hasc k
  rw [Node.childIndex, hroute.takeWhile_eq] at hindex
  rw [← ho.left_length] at hrebalance hindex ⊢
  have hinner : Node.isLeaf ⟨id, before ++ after, left ++ c :: right⟩ = false := by
    simp [Node.isLeaf]
  have hshown : (left ++ c :: right)[left.length]? = some c := by simp
  refine leads_nodeAt.next ?_
  rw [hinner, if_neg Bool.false_ne_true, hslot]
  refine (leads_lift hindex).next ?_
  refine Leads.bind (leads_whenRecording ?entry) ?_
  case entry =>
    rw [Node.enterFrames, hshown]
    refine (leads_lift (entry_eq_ok hshown)).next ?_
    exact (leads_recordSearch k _).bind (leads_recordLive _)
  refine Leads.bind (hbelow.within c) ?_
  exact hrebalance.rest (.refl D capacity ctx _ m l')

end Inner

/-- **A guarded removal below a node never fails.** It does what the removal does and shows its
frames. -/
theorem leads_removeFrom (hcap : 2 ≤ capacity) (hn : n.Balanced capacity h)
    (hne : n.children ≠ [] → n.keys ≠ []) (hasc : Ascending n.inorder) {r : Removal}
    (hr : n.remove (capacity / 2) k l = .ok r) (ctx : List (Layer Key))
    (hids : D → Issued l.lastId (plug ctx n).ids) :
    Leads D capacity ctx (removeFrom k (h + 1) (pathOf ctx)) n l (pure r.found) r.node r.ledger
      (n.removeFrames (capacity / 2) k l) := by
  induction h generalizing n r ctx with
  | zero =>
      obtain ⟨id, keys, children⟩ := n
      obtain rfl : children = [] := hn
      obtain rfl : Node.removeFromLeaf ⟨id, keys, []⟩ k l = r := Except.ok.inj hr
      exact leads_nodeAt.next (leads_removeFromLeaf _ k l)
  | succ h ih =>
      have hkeys := hn.keys_ne_nil hne
      have hkasc : Ascending n.keys := hasc.sublist hn.fits.keys_sublist_inorder
      cases hslot : n.slotOf? k with
      | some i =>
          obtain ⟨before, a, after, hsplit, rfl, -⟩ := Node.slotOf?_eq_some hslot
          obtain ⟨left, c, right, hn', hopen, hc⟩ := hn.opened hsplit
          have hkeys' := hc.keys_ne_nil hcap
          rw [hn'] at hslot hr hids ⊢
          obtain ⟨e, he, hshrunk, -⟩ := Node.exists_removeMax hcap hc.1 hkeys' l
          have hothers : (e.key :: after).length = (a :: after).length := rfl
          obtain ⟨m, l', hm, -⟩ := Node.exists_repaired_of_shrunk hopen hc hshrunk hothers (by simp)
            n.id
          obtain rfl := Except.ok.inj
            ((Node.remove_opened_separator hopen.left_length hslot he hm).symm.trans hr)
          rw [Node.removeFrames_opened_separator hopen.left_length hslot he]
          have hinner : Node.isLeaf ⟨n.id, before ++ a :: after, left ++ c :: right⟩ = false := by
            simp [Node.isLeaf]
          refine leads_nodeAt.next ?_
          rw [hinner, if_neg Bool.false_ne_true, hslot]
          exact (leads_removeInternal hcap hopen hc he hm hids).rest (.refl D capacity ctx _ m l')
      | none =>
          obtain ⟨before, after, hsplit, hroute⟩ := Node.exists_route k n.keys
          obtain ⟨left, c, right, hn', hopen, hc⟩ := hn.opened hsplit
          have hi := hopen.left_length
          rw [hsplit] at hkeys hkasc
          rw [hn'] at hslot hasc hr hids ⊢
          have hcasc : Ascending c.inorder := by
            rw [Node.inorder_open hi] at hasc
            exact ascending_middle hasc
          have hkeys' := hc.keys_ne_nil hcap
          obtain ⟨r', hr', hshrunk, -⟩ := Node.exists_remove (k := k) hcap hc.1 (fun _ => hkeys')
            hcasc l
          obtain ⟨m, l', hm, -⟩ := Node.exists_repaired_of_shrunk hopen hc hshrunk rfl hkeys n.id
          obtain rfl := Except.ok.inj
            ((Node.remove_opened_child hi hroute hslot hr' hm).symm.trans hr)
          rw [Node.removeFrames_opened_child hi hroute hslot hr']
          exact leads_removeFrom_child hopen hc hroute hkasc hslot hshrunk hm
            (ih hc.1 (fun _ => hkeys') hcasc hr' _ hids) hids

/-! ## The whole removal -/

/-- A root without keys gives way to its only child. -/
theorem leads_collapseRoot (n : Node Key) (l : Ledger) :
    Leads D capacity [] collapseRoot n l (pure ()) n.collapse l (n.collapseFrames l) := by
  refine leads_get fun t _ hroot _ => ?_
  have hroot' : t.root = n := hroot
  rw [hroot']
  obtain ⟨id, keys, children⟩ := n
  cases keys with
  | cons a keys => exact .refl D capacity [] _ _ l
  | nil =>
      cases children with
      | nil => exact .refl D capacity [] _ _ l
      | cons c children =>
          have hgive : Leads D capacity [] (modify fun t => { t with root := c })
              ⟨id, [], c :: children⟩ l (pure ()) c l [] := .of_run_eq fun _ _ _ => rfl
          refine (leads_lift (entry_eq_ok (x := c) rfl)).next ?_
          exact hgive.next (leads_whenRecording (leads_recordLive _))

end Guarded

namespace Tree

variable {t : Tree} {k : Key}

/-- **A guarded removal never fails.** On a valid tree it does what the removal does. -/
theorem Valid.run_remove (ht : t.Valid) (hk : k.kind = t.kind) :
    ∃ found u, t.remove k = .ok (found, u) ∧ (Guarded.remove k).run t = .ok (found, u) := by
  obtain ⟨h, hbal, -, hroot, hasc, -⟩ := t.valid_iff.1 ht
  have hcap := t.two_le_maxKeys
  obtain ⟨r, hr, -⟩ := Node.exists_remove (k := k) hcap hbal hroot hasc t.ledger
  refine ⟨r.found, t.advance r.node.collapse r.ledger fun _ => t.removeFrames k, ?_, ?_⟩
  · simp [remove, hk, minKeys, hr]
  · have hwalk := Guarded.leads_removeFrom (D := True) hcap hbal hroot hasc hr [] fun _ => ht.issued
    have hcollapse := @Guarded.leads_collapseRoot True t.maxKeys r.node r.ledger
    rw [removeFrames, minKeys, hr, ok_toOption, Option.toList_some, List.flatMap_singleton]
    refine Guarded.Leads.run_eq (Guarded.leads_get fun u _ hroot _ => ?_)
    have hroot' : u.root = t.root := hroot
    have hheight' : u.height = h := by rw [height, hroot', hbal.height_eq]
    rw [hroot', hheight', List.cons_append]
    refine Guarded.Leads.bind (Guarded.leads_whenRecording (Guarded.leads_recordLive _)) ?_
    exact hwalk.bind (hcollapse.rest (.refl _ _ _ _ _ _))

/-- **No operation faults.** On a valid tree, whether it is recording or not, a guarded operation
gives the answer of the operation and leaves the same tree, with the same frames recorded, though it
draws them by identity. So on the way every index, every path and every subtraction is in range,
every child that is to be repaired lacks at most one key, and no corruption is found. -/
theorem Valid.run_guarded (ht : t.Valid) (op : Operation) :
    ∃ answer u, t.operate op = .ok (answer, u) ∧
      (Guarded.operate op).run t = .ok (answer, u) := by
  cases op with
  | add k =>
      by_cases hk : k.kind = t.kind
      · obtain ⟨u, hu, hrun⟩ := ht.run_add hk
        refine ⟨.added, u, by simp [operate, hu], ?_⟩
        simp [Guarded.operate, hk, hrun]
      · refine ⟨.refused t.kind k.kind, t, by simp [operate, add, hk], ?_⟩
        simp [Guarded.operate, hk]
  | remove k =>
      by_cases hk : k.kind = t.kind
      · obtain ⟨found, u, hu, hrun⟩ := ht.run_remove hk
        refine ⟨.removed found, u, by simp [operate, hu], ?_⟩
        simp [Guarded.operate, hk, hrun]
      · refine ⟨.removed false, t, by simp [operate, remove, hk], ?_⟩
        simp [Guarded.operate, hk]

/-- A guarded removal with a merge of leaves and a big rotation above it. -/
theorem run_guarded_big_rotation :
    let t : Tree := ⟨2, .text, ⟨9, [.text "d"],
      [⟨7, [.text "b"], [⟨1, [.text "a"], []⟩, ⟨2, [.text "c"], []⟩]⟩,
        ⟨8, [.text "f", .text "h"],
          [⟨3, [.text "e"], []⟩, ⟨4, [.text "g"], []⟩, ⟨5, [.text "i"], []⟩]⟩]⟩,
      ⟨9, {}⟩, some [], by decide⟩
    let u : Tree := ⟨2, .text, ⟨9, [.text "f"],
      [⟨7, [.text "d"], [⟨1, [.text "b", .text "c"], []⟩, ⟨3, [.text "e"], []⟩]⟩,
        ⟨8, [.text "h"], [⟨4, [.text "g"], []⟩, ⟨5, [.text "i"], []⟩]⟩]⟩,
      ⟨9, ⟨0, 1, 0, 1⟩⟩, some (t.removeFrames (.text "a")), by decide⟩
    t.Valid ∧ t.operate (.remove (.text "a")) = .ok (.removed true, u) ∧
      (Guarded.operate (.remove (.text "a"))).run t = .ok (.removed true, u) := by
  intro t u
  have ht : t.Valid := (check_eq_ok_iff t).1 (by decide)
  have hroot : t.root.remove t.minKeys (.text "a") t.ledger =
      .ok ⟨true, u.root, u.ledger⟩ := by decide
  have hremove : t.operate (.remove (.text "a")) = .ok (.removed true, u) := by
    rw [operate, remove, if_neg (by decide), hroot]
    rfl
  obtain ⟨answer, v, hv, hrun⟩ := ht.run_guarded (.remove (.text "a"))
  obtain ⟨rfl, rfl⟩ := Prod.mk.inj (Except.ok.inj (hremove.symm.trans hv))
  exact ⟨ht, hremove, hrun⟩

end Tree

end TracedTree
