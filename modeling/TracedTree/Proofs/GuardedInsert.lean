import TracedTree.Proofs.InsertHighlights
import TracedTree.Proofs.Splicing

/-!
# A guarded insertion never fails

The guarded insertion walks down to a leaf and comes back up as far as nodes are divided. Seen from
a node on the way, it comes either to its end or to the point where the halves of that node are
lifted into the parent: this is what `Growth` says, and `Guarded.Reaches` relates the two. The step
is that of `Node.insert_induction`.

## Main definitions

* `Guarded.Reaches D capacity ctx x n l g frames`: the program ends, or lifts the halves of a node.

## Main statements

* `Tree.Valid.run_add`: on a valid tree the guarded insertion does what the insertion does.
-/

namespace TracedTree

namespace Guarded

variable {D : Prop} {capacity : Nat} {ctx : List (Layer Key)} {n : Node Key} {l : Ledger} {k : Key}

/-! ## Lists -/

theorem insertAt_append {α : Type} {xs : List α} {i : Nat} (h : xs.length = i) (x : α)
    (ys : List α) : insertAt (xs ++ ys) i x = .ok (xs ++ x :: ys) := by
  simp [insertAt, ← h]

theorem splitOff_append {α : Type} {xs : List α} {i : Nat} (h : xs.length = i) (ys : List α) :
    splitOff (xs ++ ys) i = .ok (xs, ys) := by
  simp [splitOff, ← h]

/-! ## Searching -/

/-- In ascending keys the last one before a key is found from both sides. -/
theorem childFor_eq (hasc : Ascending n.keys) (k : Key) : childFor n k = .ok (n.childIndex k) := by
  have key : ∀ slot ≤ n.keys.length,
      childFrom n k slot = .ok ((n.keys.take slot).takeWhile (·.lt k)).length := by
    intro slot hslot
    induction slot with
    | zero => rfl
    | succ slot ih =>
        have htake : n.keys.take (slot + 1) = n.keys.take slot ++ [n.keys[slot]] := by simp
        have hentry : entry n.keys slot = .ok n.keys[slot] :=
          entry_eq_ok (List.getElem?_eq_getElem hslot)
        rw [childFrom, hentry, ok_bind, htake]
        by_cases hlt : (n.keys[slot]).lt k
        · have hbefore : ∀ a ∈ n.keys.take slot, a.lt k := by
            intro a ha
            have hsub := hasc.sublist (List.take_sublist (slot + 1) n.keys)
            rw [htake] at hsub
            exact Key.lt_of_le_of_lt ((List.pairwise_append.1 hsub).2.2 a ha _ (by simp)) hlt
          rw [if_pos hlt, List.takeWhile_append_of_pos hbefore]
          simp [hlt, Nat.min_eq_left hslot]
        · rw [if_neg hlt, ih (Nat.le_of_succ_le hslot), List.takeWhile_append]
          split <;> simp_all
  have hall := key n.keys.length (Nat.le_refl _)
  rwa [List.take_length] at hall

theorem gapProbe_eq {gap : Nat} (hgap : gap ≤ n.keys.length) (k : Key) :
    gapProbe n k gap = .ok (n.gapProbe k gap) := by
  cases gap with
  | zero => rfl
  | succ slot =>
      have hentry : n.keys[slot]? = some n.keys[slot] := List.getElem?_eq_getElem hgap
      simp [gapProbe, Node.gapProbe, entry, hentry]

theorem leads_recordProbes (k : Key) (lowest : Nat) :
    Leads D capacity ctx (recordProbes (pathOf ctx) k lowest) n l (pure ()) n l
      (n.probeFrames k lowest l.counters) := by
  refine leads_nodeAt.next (leads_forM ?_)
  intro gap hgap
  obtain ⟨hlow, hhigh⟩ := List.mem_range'_1.1 (List.mem_reverse.1 hgap)
  have hmessage : gapProbe n k gap = .ok (n.gapProbe k gap) := gapProbe_eq (by omega) k
  exact (leads_lift hmessage).next (leads_recordLive _)

/-! ## Dividing a node -/

section Divide

variable {id : Nat} {keys others : List Key} {median : Key} {children more : List (Node Key)}

theorem insertAt_slotFor (n : Node Key) (k : Key) :
    insertAt n.keys (n.slotFor k) k = .ok (n.withKey k).keys := by
  have hkeys : n.keys = n.keys.takeWhile (·.le k) ++ n.keys.dropWhile (·.le k) :=
    List.takeWhile_append_dropWhile.symm
  rw [hkeys]
  exact insertAt_append rfl k _

theorem enlarge_leaf (n : Node Key) (k : Key) :
    enlarge n (n.slotFor k) k none = .ok (n.withKey k) := by
  rw [enlarge, insertAt_slotFor]
  rfl

theorem enlarge_halves {u : Layer Key} (h : u.left.length ≤ u.keys.length) (c d : Node Key)
    (m : Key) (e : Node Key) :
    enlarge (u.close d) u.left.length m (some e) =
      .ok ((u.close c).withHalves u.left.length d m e) := by
  simp [enlarge, insertAt, Layer.close, Node.withHalves, h, List.take_append,
    List.take_of_length_le (Nat.le_succ u.left.length)]

/-- A node that fits its children is divided within bounds. -/
theorem divide_append (hmiddle : keys.length = (keys ++ median :: others).length / 2)
    (hfits : Node.Fits ⟨id, keys ++ median :: others, children ++ more⟩)
    (hc : children = (children ++ more).take (keys.length + 1)) (rightId : Nat) :
    divide ⟨id, keys ++ median :: others, children ++ more⟩ rightId =
      .ok (⟨id, keys, children⟩, median, ⟨rightId, others, more⟩) := by
  have hkeys : splitOff (keys ++ median :: others) (keys.length + 1) =
      .ok (keys ++ [median], others) := by
    have hlength : (keys ++ [median]).length = keys.length + 1 := by simp
    simpa using splitOff_append hlength others
  have hmedian : entry (keys ++ [median]) keys.length = .ok median := entry_eq_ok (by simp)
  have hremove : removeAt (keys ++ [median]) keys.length = .ok keys := by
    simp [removeAt, List.eraseIdx_append_of_length_le]
  rcases hfits with hnil | hlen
  · obtain ⟨rfl, rfl⟩ := List.append_eq_nil_iff.1 hnil
    simp only [divide, Node.middle, ← hmiddle, hkeys, hmedian, hremove, ok_bind]
    rfl
  · have hlength : children.length = keys.length + 1 := by
      rw [hc, List.length_take]
      simp only [List.length_append, List.length_cons] at hlen ⊢
      omega
    have hne : (children ++ more).isEmpty = false := by
      rw [List.isEmpty_eq_false_iff]
      exact List.ne_nil_of_length_eq_add_one hlen
    simp only [divide, Node.middle, ← hmiddle, hkeys, hmedian, hremove, ok_bind, hne,
      Bool.false_eq_true, if_false, splitOff_append hlength]
    rfl

end Divide

theorem id_enlarge {right : Option (Node Key)} {slot : Nat} {filled : Node Key}
    (h : enlarge n slot k right = .ok filled) : filled.id = n.id := by
  obtain ⟨keys, -, h⟩ := bind_eq_ok_iff.1 (show (insertAt n.keys slot k >>= _) = _ from h)
  cases right with
  | none =>
      obtain rfl := Except.ok.inj h
      rfl
  | some right =>
      obtain ⟨children, -, h⟩ := bind_eq_ok_iff.1 h
      obtain rfl := Except.ok.inj h
      rfl

/-- A node with one key too many is shown in the place of the node as it is. -/
theorem leads_recordOverflow {right : Option (Node Key)} {slot : Nat} {filled : Node Key}
    (hfilled : enlarge n slot k right = .ok filled) (hne : filled.keys ≠ [])
    (hlive : D → (plug ctx n).ids.Nodup) (hids : D → (plug ctx filled).ids.Nodup) :
    Leads D capacity ctx (recordOverflow (pathOf ctx) slot k right) n l (pure ()) n l
      (right.elim (n.probeFrames k slot l.counters) (fun _ => []) ++
        filled.overflowFrames slot right.isSome l.counters) := by
  have hmiddle : filled.middle < filled.keys.length := by
    have hpos := List.length_pos_of_ne_nil hne
    exact Nat.div_lt_self hpos (by decide)
  have hkey : filled.keys[filled.middle]? = some filled.keys[filled.middle] :=
    List.getElem?_eq_getElem hmiddle
  have hlabel : filled.picture.keys[filled.middle]?.getD "" = filled.keys[filled.middle].label := by
    obtain ⟨id, keys, children⟩ := filled
    rw [Node.picture_mk, List.getElem?_map, hkey]
    rfl
  rw [Node.overflowFrames, hlabel]
  have hprobes : Leads D capacity ctx
      (right.elim (recordProbes (pathOf ctx) k slot) fun _ => pure ()) n l (pure ()) n l
      (right.elim (n.probeFrames k slot l.counters) fun _ => []) := by
    cases right with
    | none => exact leads_recordProbes k slot
    | some right => exact .refl D capacity ctx _ n l
  refine hprobes.bind ?_
  refine leads_nodeAt.next ?_
  refine (leads_lift hfilled).next ?_
  refine (leads_lift (entry_eq_ok hkey)).next ?_
  refine (leads_shownWith _ _).next ?_
  have hshown : D → (plug ctx n).picture.modify filled.id (fun _ => filled.picture) =
      draw ctx filled.picture := by
    intro hD
    rw [id_enlarge hfilled]
    exact modify_picture_plug (hlive hD) fun _ => filled.picture
  refine (leads_record fun hD => ⟨hshown hD, ?_⟩).bind
    ((leads_record fun hD => ⟨hshown hD, rfl⟩).bind (leads_record fun hD => ⟨hshown hD, rfl⟩))
  rw [hshown hD, ← Node.id_picture, subtree_draw (nodup_draw (hids hD)) (Node.mem_preorder_self _)]
  rfl

/-- A node with one key too many is divided, and its left half takes its place. -/
theorem leads_splitNode (D : Prop) (capacity : Nat) (ctx : List (Layer Key)) (l : Ledger)
    (carried : Option (Nat × Node Key)) {filled : Node Key}
    (hfilled : enlarge n (carried.elim (n.slotFor k) Prod.fst) k (carried.map Prod.snd) =
      .ok filled)
    (hlen : filled.keys.length = capacity + 1) (hfits : filled.Fits)
    (hlive : D → (plug ctx n).ids.Nodup) (hids : D → (plug ctx filled).ids.Nodup) :
    ∃ d m e, filled.settle capacity l = (.halves d m e, l.split) ∧
      Leads D capacity ctx (splitNode (pathOf ctx) k carried) n l (pure (m, e)) d l.split
        ((carried.map Prod.snd).elim (n.probeFrames k (carried.elim (n.slotFor k) Prod.fst)
            l.counters) (fun _ => []) ++
          filled.overflowFrames (carried.elim (n.slotFor k) Prod.fst)
            (carried.map Prod.snd).isSome l.counters) := by
  rcases Node.settle_cases (Nat.le_of_eq hlen) l with ⟨hfull, -⟩ |
    ⟨keys, m, others, children, more, heq, hkeys, hothers, hc, hsettle⟩
  · omega
  refine ⟨_, m, _, hsettle, ?_⟩
  have hdivide : divide filled l.freshId =
      .ok (⟨filled.id, keys, children⟩, m, ⟨l.freshId, others, more⟩) := by
    rw [heq] at hfits ⊢
    refine divide_append ?_ hfits hc l.freshId
    simp only [List.length_append, List.length_cons]
    omega
  have hne : filled.keys ≠ [] := List.ne_nil_of_length_eq_add_one hlen
  refine leads_nodeAt.next ?_
  refine (leads_whenRecording (leads_recordOverflow hfilled hne hlive hids)).rest ?_
  refine leads_get fun t _ _ hledger => ?_
  rw [hledger]
  refine (leads_lift hfilled).next ?_
  refine (leads_lift hdivide).next ?_
  refine (leads_account Ledger.split).next ?_
  exact Leads.next (leads_alterAt rfl) (.refl D capacity ctx _ _ _)

/-! ## Lifting a key -/

/-- The program comes to its end with the node grown whole, or it lifts the halves of the node. -/
def Reaches (D : Prop) (capacity : Nat) (ctx : List (Layer Key)) (x : Run Unit) (n : Node Key)
    (l : Ledger) : Growth × Ledger → List Frame → Prop
  | (.whole d, l'), frames => Leads D capacity ctx x n l (pure ()) d l' frames
  | (.halves d m e, l'), frames =>
    Leads D capacity ctx x n l (lift (pathOf ctx) m e) d l' frames

theorem Reaches.after {x y : Run Unit} {m : Node Key} {l' : Ledger} {g : Growth × Ledger}
    {frames more : List Frame} (h : Leads D capacity ctx x n l y m l' frames)
    (h' : Reaches D capacity ctx y m l' g more) :
    Reaches D capacity ctx x n l g (frames ++ more) := by
  obtain ⟨g, l''⟩ := g
  cases g with
  | whole d => exact h.trans h'
  | halves d m e => exact h.trans h'

section Lift

variable {u : Layer Key} {m : Key} {c d e : Node Key}

theorem ids_withHalves (u : Layer Key) (c d : Node Key) (m : Key) (e : Node Key) :
    ((u.close c).withHalves u.left.length d m e).ids =
      u.id :: u.left.flatMap Node.ids ++ (d.ids ++ e.ids) ++ u.right.flatMap Node.ids := by
  simp [Node.withHalves, Layer.close, Node.ids_mk]

/-- The left half stands in the tree while the right half does not. -/
theorem sublist_ids_halves (u : Layer Key) (c d : Node Key) (m : Key) (e : Node Key) :
    (u.close d).ids.Sublist ((u.close c).withHalves u.left.length d m e).ids := by
  rw [ids_withHalves, ids_close]
  exact ((List.sublist_append_left d.ids e.ids).append_left _).append_right _

/-- A node that is proposed above both halves has the only new identity. -/
theorem perm_ids_proposed (u : Layer Key) (c d : Node Key) (m : Key) (e : Node Key) (id : Nat) :
    (u.close ⟨id, [m], [d, e]⟩).ids.Perm
      (((u.close c).withHalves u.left.length d m e).ids ++ [id]) := by
  have hproposed : (⟨id, [m], [d, e]⟩ : Node Key).ids.Perm (d.ids ++ e.ids ++ [id]) := by
    simpa [Node.ids_mk] using (List.perm_append_singleton id (d.ids ++ e.ids)).symm
  rw [ids_withHalves, ids_close]
  exact Node.perm_around hproposed _ _

/-- The halves of a child are shown below a node that is proposed in its place. -/
theorem leads_recordPromotion (c : Node Key) (hids : D → Issued l.lastId
      (plug ctx ((u.close c).withHalves u.left.length d m e)).ids) :
    Leads D capacity ctx (recordPromotion (u.left.length :: pathOf ctx) m e) (u.close d) l
      (pure ()) (u.close d) l ((u.close c).promotionFrames u.left.length d m e l) := by
  let lifted := proposal l.proposedId d m e
  have hshown : D → (plug ctx (u.close d)).picture.modify d.id (fun _ => lifted) =
      draw ctx ((u.close c).picture.withChild u.left.length lifted) := by
    intro hD
    have hlive : (plug (u :: ctx) d).ids.Nodup :=
      (hids hD).nodup.sublist (sublist_ids_plug ctx (sublist_ids_halves u c d m e))
    rw [← draw_cons]
    exact modify_picture_plug hlive fun _ => lifted
  have hbelow : D → ∀ h : Highlight, h.subtree l.proposedId [0]
      (draw ctx ((u.close c).picture.withChild u.left.length lifted)) = h.slotBelow lifted 0 := by
    intro hD h
    have hnodup : (plug (u :: ctx) ⟨l.proposedId, [m], [d, e]⟩).ids.Nodup :=
      (hids hD).nodup_proposed (perm_ids_plug ctx (perm_ids_proposed u c d m e _))
    have hlifted : lifted = Node.picture ⟨l.proposedId, [m], [d, e]⟩ := Node.proposal_eq _ d m e
    rw [← draw_cons, hlifted]
    exact subtree_draw (nodup_draw hnodup) (Node.mem_preorder_self _) h [0]
  refine leads_childAt.next ?_
  refine leads_get fun t _ _ hledger => ?_
  rw [hledger]
  refine (leads_shownWith _ _).next ?_
  refine (leads_record fun hD => ⟨hshown hD, rfl⟩).bind ?_
  refine (leads_record fun hD => ⟨hshown hD, ?inward⟩).bind ?_
  case inward => rw [hshown hD, hbelow hD]
  refine leads_nodeAt.next (leads_record fun hD => ⟨hshown hD, ?drawn⟩)
  case drawn =>
    rw [hshown hD, hbelow hD]
    rfl

/-- A parent receives the halves that come up from its child, or is divided in turn. -/
theorem reaches_lift (c : Node Key)
    (hlength : u.left.length + u.right.length = u.keys.length) (hlen : u.keys.length ≤ capacity)
    (hids : D → Issued l.lastId (plug ctx ((u.close c).withHalves u.left.length d m e)).ids) :
    Reaches D capacity ctx (lift (u.left.length :: pathOf ctx) m e) (u.close d) l
      (((u.close c).withHalves u.left.length d m e).settle capacity l)
      ((u.close c).receiveFrames capacity u.left.length (.halves d m e, l)) := by
  have hfilled := enlarge_halves (u := u) (by omega) c d m e
  have hkeys : ((u.close c).withHalves u.left.length d m e).keys.length =
      (u.close d).keys.length + 1 := by
    simp [Node.withHalves, Layer.close]
    omega
  have hfits : ((u.close c).withHalves u.left.length d m e).Fits := by
    right
    rw [hkeys]
    simp [Node.withHalves, Layer.close]
    omega
  have hheld : (u.close d).keys.length ≤ capacity := hlen
  have hlive : D → (plug ctx (u.close d)).ids.Nodup := fun hD =>
    (hids hD).nodup.sublist (sublist_ids_plug ctx (sublist_ids_halves u c d m e))
  have hpromotion : Leads D capacity ctx (recordPromotion (u.left.length :: pathOf ctx) m e)
      (u.close d) l (pure ()) (u.close d) l
      ((u.close c).promotionFrames u.left.length d m e l) := leads_recordPromotion c hids
  simp only [Node.receiveFrames]
  generalize (u.close c).withHalves u.left.length d m e = filled at hfilled hkeys hfits hids ⊢
  by_cases hfull : (u.close d).keys.length = capacity
  · have hlen' : filled.keys.length = capacity + 1 := by omega
    obtain ⟨d', m', e', hsettle, hsplit⟩ := leads_splitNode D capacity ctx l
      (some (u.left.length, e)) hfilled hlen' hfits hlive fun hD => (hids hD).nodup
    rw [hsettle, if_neg (by omega)]
    refine (leads_whenRecording hpromotion).bind ?_
    refine leads_nodeAt.next ?_
    refine leads_get fun t ht _ _ => ?_
    rw [ht, if_pos hfull]
    exact hsplit.rest (.refl D capacity ctx _ _ _)
  · have hlen' : filled.keys.length ≤ capacity := by omega
    rw [Node.settle, if_pos hlen', if_pos hlen']
    refine (leads_whenRecording hpromotion).bind ?_
    refine leads_nodeAt.next ?_
    refine leads_get fun t ht _ _ => ?_
    rw [ht, if_neg hfull]
    refine Leads.next (leads_alterAt hfilled) ?_
    refine leads_whenRecording (leads_nodeAt.next ?_)
    exact leads_recordSubtree (fun hD => (hids hD).nodup) (Node.mem_preorder_self filled) _ _

end Lift

/-! ## Placing a key -/

/-- A leaf takes a key, or is divided. -/
theorem reaches_place (hleaf : n.children = []) (hcap : 0 < capacity)
    (hlen : n.keys.length ≤ capacity) (hids : D → (plug ctx n).ids.Nodup) :
    Reaches D capacity ctx (place (pathOf ctx) k) n l ((n.withKey k).settle capacity l)
      (n.leafInsertFrames capacity k l.counters) := by
  have hfilled : enlarge n (n.slotFor k) k none = .ok (n.withKey k) := enlarge_leaf n k
  have hkeys : (n.withKey k).keys.length = n.keys.length + 1 := Node.length_withKey n
  rw [Node.leafInsertFrames]
  by_cases hfull : n.keys.length = capacity
  · have hlen' : (n.withKey k).keys.length = capacity + 1 := by omega
    have hne : n.keys.isEmpty = false := by
      rw [List.isEmpty_eq_false_iff, ← List.length_pos_iff]
      omega
    obtain ⟨d, m, e, hsettle, hsplit⟩ := leads_splitNode D capacity ctx l none hfilled hlen'
      (.inl hleaf) hids (by rwa [ids_plug_congr ctx (Node.ids_withKey n k)])
    have hover : ¬(n.withKey k).keys.length ≤ capacity := by omega
    rw [hsettle, hne, if_neg Bool.false_ne_true, if_neg hover]
    refine leads_nodeAt.next ?_
    refine leads_get fun t ht _ _ => ?_
    rw [ht, if_pos hfull]
    exact hsplit.rest (.refl D capacity ctx _ _ _)
  · have hlen' : (n.withKey k).keys.length ≤ capacity := by omega
    rw [Node.settle, if_pos hlen', if_pos hlen']
    refine leads_nodeAt.next ?_
    refine leads_get fun t ht _ _ => ?_
    rw [ht, if_neg hfull]
    refine leads_nodeAt.next ?_
    refine Leads.bind (leads_whenRecording ?probes) ?_
    case probes =>
      cases hempty : n.keys.isEmpty with
      | true => exact .refl D capacity ctx _ n l
      | false => exact leads_recordProbes k _
    refine Leads.next (leads_alterAt ?slot) (leads_whenRecording (leads_recordLive _))
    case slot =>
      rw [insertAt_slotFor]
      rfl

/-! ## The descent -/

section Descent

variable {u : Layer Key} {c : Node Key} {levels : Nat}

theorem leads_descend (hasc : Ascending u.keys)
    (hindex : (u.close c).childIndex k = u.left.length) :
    Leads D capacity ctx (descend k (levels + 1) (pathOf ctx)) (u.close c) l
      (descend k levels (u.left.length :: pathOf ctx)) (u.close c) l
      ((u.close c).descentFrames k u.left.length l.counters) := by
  have hchild := childFor_eq (n := u.close c) hasc k
  have hinner : (u.close c).isLeaf = false := by
    simp [Node.isLeaf, Layer.close]
  have hentry := entry_close u c
  rw [hindex] at hchild
  refine leads_nodeAt.next ?_
  rw [hinner, if_neg Bool.false_ne_true]
  refine (leads_lift hchild).next ?_
  refine Leads.rest (leads_whenRecording ?_) (.refl D capacity ctx _ _ _)
  rw [Node.descentFrames]
  refine (leads_recordProbes k _).bind ?_
  refine (leads_lift hentry).next ?_
  have hshown : (u.close c).children[u.left.length]? = some c := by simp [Layer.close]
  rw [hshown]
  exact leads_recordLive _

/-- The walk down from a node goes on below the child that the key is sent into. -/
theorem leads_descend_opened {h : Nat} {id : Nat} {before after : List Key}
    {left right : List (Node Key)} {c d : Node Key} {y : Run Unit} {l' : Ledger}
    {frames : List Frame} {f : List Nat → Run Unit}
    (ho : Node.Opened capacity h before after left right) (hc : c.Filled capacity h)
    (hroute : Node.Route k before after)
    (hasc : Ascending (Node.inorder ⟨id, before ++ after, left ++ c :: right⟩))
    (hchild : Ascending c.inorder → Leads D capacity (⟨id, before ++ after, left, right⟩ :: ctx)
      (descend k levels (left.length :: pathOf ctx) >>= f) c l y d l' frames) :
    Leads D capacity ctx (descend k (levels + 1) (pathOf ctx) >>= f)
      ⟨id, before ++ after, left ++ c :: right⟩ l y ⟨id, before ++ after, left ++ d :: right⟩ l'
      (Node.descentFrames ⟨id, before ++ after, left ++ c :: right⟩ k left.length l.counters ++
        frames.map (Frame.within (Node.picture ⟨id, before ++ after, left ++ c :: right⟩)
          left.length)) := by
  have hi := ho.left_length
  have hkeys : Ascending (before ++ after) :=
    hasc.sublist (ho.balanced hc id).fits.keys_sublist_inorder
  have hindex : Node.childIndex ⟨id, before ++ after, left ++ c :: right⟩ k = left.length := by
    rw [Node.childIndex, hroute.takeWhile_eq, hi]
  rw [Node.inorder_open hi] at hasc
  exact ((leads_descend (u := ⟨id, before ++ after, left, right⟩) hkeys hindex).andThen f).trans
    ((hchild (ascending_middle hasc)).within c)

end Descent

/-- **A guarded insertion below a node never fails.** It does what the insertion does and shows
its frames, up to the point where the halves of the node are lifted. -/
theorem reaches_insert (hcap : 0 < capacity) {h : Nat} (hn : n.Balanced capacity h)
    (hlen : n.keys.length ≤ capacity) (hasc : Ascending n.inorder) (l : Ledger) :
    ∃ g, n.insert capacity k l = .ok g ∧ g.1.Filled capacity h n.keys.length ∧ ∀ ctx,
      (D → Issued l.lastId (plug ctx n).ids) →
        Reaches D capacity ctx (descend k (h + 1) (pathOf ctx) >>= (place · k)) n l g
          (n.insertFrames capacity k l) := by
  have key := Node.insert_induction l (k := k)
    (P := fun h n g => n.insert capacity k l = .ok g ∧ (Ascending n.inorder → ∀ ctx,
      (D → Issued l.lastId (plug ctx n).ids) →
        Reaches D capacity ctx (descend k (h + 1) (pathOf ctx) >>= (place · k)) n l g
          (n.insertFrames capacity k l)))
    ?leaf ?whole ?halves hcap hn hlen
  · obtain ⟨g, hg, hfilled, -, hreaches⟩ := key
    exact ⟨g, hg, hfilled, hreaches hasc⟩
  case leaf =>
    intro id keys hlen
    refine ⟨by rw [Node.insert]; rfl, fun _ ctx hids => ?_⟩
    rw [Node.length_withKey] at hlen
    have hdescend : Leads D capacity ctx (descend k 1 (pathOf ctx)) ⟨id, keys, []⟩ l
        (pure (pathOf ctx)) ⟨id, keys, []⟩ l [] := leads_nodeAt.next (.refl D capacity ctx _ _ _)
    have hleaf : Node.insertFrames capacity k l ⟨id, keys, []⟩ =
        Node.leafInsertFrames ⟨id, keys, []⟩ capacity k l.counters := by
      rw [Node.insertFrames]
      rfl
    rw [hleaf, ← List.nil_append (Node.leafInsertFrames _ _ _ _)]
    exact .after (hdescend.next (.refl D capacity ctx _ _ _))
      (reaches_place rfl hcap (Nat.le_of_succ_le_succ hlen) fun hD => (hids hD).nodup)
  case whole =>
    intro h id before after left right c d l' hopen hc hroute _ hchild
    obtain ⟨hg, hreaches⟩ := hchild
    have hi := hopen.left_length
    refine ⟨?_, fun hasc ctx hids => ?_⟩
    · rw [Node.insert_opened hi hroute.takeWhile_eq, hg, ok_map, Node.receive,
        Node.withChild_append hi]
    · rw [Node.insertFrames_opened hi hroute.takeWhile_eq id hg, Node.receiveFrames,
        List.append_nil, ← hi]
      let u : Layer Key := ⟨id, before ++ after, left, right⟩
      have hwalk := leads_descend_opened hopen hc hroute hasc fun hc => hreaches hc (u :: ctx) hids
      exact hwalk
  case halves =>
    intro h id before after left right c d m e l' hopen hc hroute hlen _ _ hchild
    obtain ⟨hg, hreaches⟩ := hchild
    have hi := hopen.left_length
    refine ⟨?_, fun hasc ctx hids => ?_⟩
    · rw [Node.insert_opened hi hroute.takeWhile_eq, hg, ok_map, Node.receive,
        Node.withHalves_append hi]
    · rw [Node.insertFrames_opened hi hroute.takeWhile_eq id hg, ← Node.withHalves_append hi, ← hi]
      let u : Layer Key := ⟨id, before ++ after, left, right⟩
      have hwalk := leads_descend_opened hopen hc hroute hasc fun hc => hreaches hc (u :: ctx) hids
      have hkeys : u.left.length + u.right.length = u.keys.length := by
        simp [u, hi, hopen.right_length]
      have hheld : u.keys.length ≤ capacity := by simpa [u, ← Nat.add_assoc] using hlen
      obtain ⟨g, s, hg', hout, -⟩ := Node.ids_insert (k := k) hcap hc.1 hc.2.2 l
      obtain rfl := Except.ok.inj (hg.symm.trans hg')
      have hwithin : HandedOut s l l' (u.close c).ids
          ((u.close c).withHalves u.left.length d m e).ids := by
        rw [ids_withHalves, ids_close]
        exact hout.within _ _
      exact .after hwalk (reaches_lift c hkeys hheld fun hD => hwithin.issued_plug (hids hD))

/-! ## The whole insertion -/

/-- Halves of the root are put below a new one. -/
theorem leads_lift_root (d : Node Key) (m : Key) (e : Node Key) (l : Ledger) :
    Leads D capacity [] (lift [] m e) d l (pure ()) (Growth.root (.halves d m e, l)).1
      (Growth.root (.halves d m e, l)).2 (Growth.rootFrames (.halves d m e, l)) := by
  have hgrow : Leads D capacity [] (growRoot m e) d l (pure ()) ⟨l.freshId, [m], [d, e]⟩ l.issue
      [] := .of_run_eq fun _ _ _ => rfl
  refine Leads.rest (leads_whenRecording ?_) hgrow
  refine leads_nodeAt.next ?_
  refine leads_get fun t _ _ hledger => ?_
  rw [hledger]
  exact (leads_record fun _ => ⟨rfl, rfl⟩).bind (leads_record fun _ => ⟨rfl, rfl⟩)

theorem Reaches.root {x : Run Unit} {g : Growth × Ledger} {frames : List Frame}
    (h : Reaches D capacity [] x n l g frames) :
    Leads D capacity [] x n l (pure ()) (Growth.root g).1 (Growth.root g).2
      (frames ++ Growth.rootFrames g) := by
  obtain ⟨g, l'⟩ := g
  cases g with
  | whole d =>
      rw [Growth.rootFrames, List.append_nil]
      exact h
  | halves d m e => exact Leads.trans h (leads_lift_root d m e l')

end Guarded

/-- **A guarded insertion never fails.** On a valid tree it does what the insertion does. -/
theorem Tree.Valid.run_add {t : Tree} (ht : t.Valid) {k : Key} (hk : k.kind = t.kind) :
    ∃ u, t.add k = .ok u ∧ (Guarded.add k).run t = .ok ((), u) := by
  obtain ⟨h, hbal, hlen, -, hasc, -⟩ := t.valid_iff.1 ht
  have hcap := t.two_le_maxKeys
  obtain ⟨g, hg, -, hreaches⟩ := Guarded.reaches_insert (D := True) (k := k) (by omega) hbal hlen
    hasc t.ledger
  refine ⟨t.advance (Growth.root g).1 (Growth.root g).2 fun _ => t.addFrames k, ?_, ?_⟩
  · simp [add, hk, hg]
  · rw [addFrames, hg, ok_toOption, Option.toList_some, List.flatMap_singleton]
    refine Guarded.Leads.run_eq (Guarded.leads_get fun u _ hroot _ => ?_)
    have hroot' : u.root = t.root := hroot
    have hheight' : u.height = h := by rw [height, hroot', hbal.height_eq]
    rw [hroot', hheight', List.cons_append]
    exact Guarded.Leads.bind (Guarded.leads_whenRecording (Guarded.leads_recordLive _))
      (hreaches [] fun _ => ht.issued).root

end TracedTree
