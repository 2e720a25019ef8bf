import TracedTree.Frame.Insert
import TracedTree.Proofs.Frames
import TracedTree.Proofs.Tree

/-!
# Frames of an insertion conserve keys

An insertion shows the keys before until the new key is in its leaf, and the keys after from then
on, although a node that was divided is shown with its halves below a node that is only proposed.
The step is that of `Node.insert_induction`: the frames of a child are shown within its parent, and
behind them the parent shows what it receives.

## Main definitions

* `Growth.Shown ledger n g frames`: what the frames of an insertion below `n` show.

## Main statements

* `Tree.Valid.add_frames`: the frames of an insertion into a valid tree.
-/

namespace TracedTree

variable {capacity h : Nat} {k : Key} {ledger l : Ledger}

/-- What the frames of an insertion below a node show: the node as it was, and then the keys of
what it grows to. If it grows to one node, it is this node that they end with. -/
structure Growth.Shown (ledger : Ledger) (n : Node Key) (g : Growth × Ledger)
    (frames : List Frame) : Prop where
  parts : ∃ first second, frames = first ++ second ∧ Still n.picture ledger.counters first ∧
    second ≠ [] ∧ Shows g.1.inorder second ∧ Counted ledger.counters second g.2.counters
  ends : ∀ d, g.1 = .whole d → Ends d.picture g.2.counters frames

namespace Node

/-! ## The frames of one node -/

theorem still_probeFrames (n : Node Key) (k : Key) (lowest : Nat) (c : Counters) :
    Still n.picture c (n.probeFrames k lowest c) :=
  List.forall_mem_map.2 fun _ _ => ⟨rfl, rfl⟩

theorem still_descentFrames (n : Node Key) (k : Key) (i : Nat) (c : Counters) :
    Still n.picture c (n.descentFrames k i c) :=
  (still_probeFrames n k i c).append (List.forall_mem_map.2 fun _ _ => ⟨rfl, rfl⟩)

theorem still_overflowFrames (n : Node Key) (slot : Nat) (cameUp : Bool) (c : Counters) :
    Still n.picture c (n.overflowFrames slot cameUp c) := by
  simp [Still, overflowFrames]

theorem still_promotionFrames (n : Node Key) (i : Nat) (d : Node Key) (m : Key) (e : Node Key)
    (ledger : Ledger) :
    Still (n.picture.withChild i (proposal ledger.proposedId d m e)) ledger.counters
      (n.promotionFrames i d m e ledger) := by
  simp [Still, promotionFrames]

theorem inorder_proposal (id : Nat) (d : Node Key) (m : Key) (e : Node Key) :
    (proposal id d m e).inorder = (Growth.halves d m e).inorder.map Key.label := by
  rw [proposal, inorder_inner (by simp)]
  simp [inorder_picture, Growth.inorder]

/-- What a node shows once it holds one more key: itself, or its overflow. -/
def receivedFrames (n : Node Key) (capacity slot : Nat) (cameUp : Bool) (arrived : Highlight)
    (c : Counters) : List Frame :=
  if n.keys.length ≤ capacity then [⟨n.picture, arrived, c⟩] else n.overflowFrames slot cameUp c

theorem receivedFrames_ne_nil (n : Node Key) (slot : Nat) (cameUp : Bool) (arrived : Highlight)
    (c : Counters) : n.receivedFrames capacity slot cameUp arrived c ≠ [] := by
  rw [receivedFrames]
  split <;> simp [overflowFrames]

theorem still_receivedFrames (n : Node Key) (slot : Nat) (cameUp : Bool) (arrived : Highlight)
    (c : Counters) : Still n.picture c (n.receivedFrames capacity slot cameUp arrived c) := by
  rw [receivedFrames]
  split
  · simp [Still]
  · exact n.still_overflowFrames slot cameUp c

/-- Frames that end with those of a node that has received a key are frames of its division, if
what comes before them are such frames. -/
theorem shown_settle {m n : Node Key} {first middle : List Frame}
    (hn : n.Balanced capacity h) (hlen : n.keys.length ≤ capacity + 1)
    (hfirst : Still m.picture ledger.counters first) (hmiddle : Shows n.inorder middle)
    (hcounted : Counted ledger.counters middle l.counters) (slot : Nat) (cameUp : Bool)
    (arrived : Highlight) :
    Growth.Shown ledger m (n.settle capacity l)
      (first ++ (middle ++ n.receivedFrames capacity slot cameUp arrived l.counters)) := by
  have hne : n.receivedFrames capacity slot cameUp arrived l.counters ≠ [] :=
    n.receivedFrames_ne_nil slot cameUp arrived l.counters
  have hstill : Still n.picture l.counters
      (n.receivedFrames capacity slot cameUp arrived l.counters) :=
    n.still_receivedFrames slot cameUp arrived l.counters
  have hle : l.counters ≤ (n.settle capacity l).2.counters := by
    obtain ⟨s, -, hs⟩ := ids_settle hlen l
    rw [hs]
    exact ⟨Nat.le_add_right _ s, Nat.le_refl _, Nat.le_refl _, Nat.le_refl _⟩
  refine ⟨⟨first, _, rfl, hfirst, by simp [hne], ?_, hcounted.append (hstill.counted.mono hle)⟩,
    fun d hd => ?_⟩
  · rw [inorder_settle hn hlen]
    exact hmiddle.append hstill.shows
  · rcases settle_cases hlen l with ⟨-, heq⟩ | ⟨_, _, _, _, _, -, -, -, -, heq⟩
    · rw [heq] at hd ⊢
      obtain rfl : n = d := Growth.whole.inj hd
      exact (hstill.ends.append hne).append (by simp [hne])
    · rw [heq] at hd
      cases hd

/-! ## The descent -/

section Descent

variable {id : Nat} {before after : List Key} {left right : List (Node Key)} {c : Node Key}
  {g : Growth × Ledger}

theorem insertFramesAt_append (ledger : Ledger) (left : List (Node Key)) (c : Node Key)
    (right : List (Node Key)) :
    insertFramesAt capacity k ledger left.length (left ++ c :: right) =
      insertFrames capacity k ledger c := by
  induction left with
  | nil => rfl
  | cons d left ih => exact ih

/-- An inner node shows the search in it, what its child shows, and what it receives. -/
theorem insertFrames_opened (h : left.length = before.length)
    (hindex : (before ++ after).takeWhile (·.lt k) = before) (id : Nat)
    (hg : insert capacity k ledger c = .ok g) :
    insertFrames capacity k ledger ⟨id, before ++ after, left ++ c :: right⟩ =
      descentFrames ⟨id, before ++ after, left ++ c :: right⟩ k before.length ledger.counters ++
        (insertFrames capacity k ledger c).map (Frame.within
          (picture ⟨id, before ++ after, left ++ c :: right⟩) before.length) ++
        receiveFrames ⟨id, before ++ after, left ++ c :: right⟩ capacity before.length g := by
  have hi : childIndex ⟨id, before ++ after, left ++ c :: right⟩ k = before.length := by
    simp only [childIndex, hindex]
  have hne : (left ++ c :: right).isEmpty = false := by simp
  rw [insertFrames]
  simp only [hi, hne, Bool.false_eq_true, if_false]
  rw [← h, insertFramesAt_append, insertAt_append, hg, ok_toOption, Option.toList_some,
    List.flatMap_singleton]

end Descent

/-- **The frames of an insertion below a node** show the node as it was, and then the keys of what
it grows to. -/
theorem shown_insert (hcap : 0 < capacity) {n : Node Key} (hn : n.Balanced capacity h)
    (hlen : n.keys.length ≤ capacity) (ledger : Ledger) :
    ∃ g, n.insert capacity k ledger = .ok g ∧ g.1.Filled capacity h n.keys.length ∧
      Growth.Shown ledger n g (n.insertFrames capacity k ledger) := by
  have key := insert_induction ledger (k := k)
    (P := fun _ n g => n.insert capacity k ledger = .ok g ∧
      Growth.Shown ledger n g (n.insertFrames capacity k ledger))
    ?leaf ?whole ?halves hcap hn hlen
  · obtain ⟨g, hg, hfilled, -, hshown⟩ := key
    exact ⟨g, hg, hfilled, hshown⟩
  case leaf =>
    intro id keys hlen
    have hwith : (withKey ⟨id, keys, []⟩ k).Balanced capacity 0 := rfl
    refine ⟨by rw [insert]; rfl, ?_⟩
    have hprobes : Still (picture ⟨id, keys, []⟩) ledger.counters (if keys.isEmpty then [] else
        probeFrames ⟨id, keys, []⟩ k (slotFor ⟨id, keys, []⟩ k) ledger.counters) := by
      split
      · simp [Still]
      · exact still_probeFrames _ k _ _
    exact shown_settle hwith hlen hprobes shows_nil (.nil (le_refl ledger.counters)) _ false _
  case whole =>
    intro h id before after left right c d l hopen hc hroute _ hchild
    obtain ⟨hg, hshown⟩ := hchild
    have hi := hopen.left_length
    obtain ⟨first, second, hframes, hfirst, hne, hsecond, hcounted⟩ := hshown.parts
    refine ⟨?_, ⟨?_, ?_⟩⟩
    · rw [insert_opened hi hroute.takeWhile_eq, hg, ok_map, receive, withChild_append hi]
    · rw [insertFrames_opened hi hroute.takeWhile_eq id hg, hframes, List.map_append,
        ← List.append_assoc, receiveFrames, List.append_nil]
      refine ⟨_, _, rfl, (still_descentFrames _ k _ _).append (hfirst.within hi), by simpa, ?_,
        hcounted.within _ _⟩
      rw [Growth.inorder, inorder_open hi]
      exact hsecond.within hi
    · intro e he
      obtain rfl := Growth.whole.inj he
      rw [insertFrames_opened hi hroute.takeWhile_eq id hg, receiveFrames, List.append_nil]
      refine ((hshown.ends d rfl).within hi).append ?_
      simp [hframes, hne]
  case halves =>
    intro h id before after left right c d m e l hopen hc hroute hlen hd he hchild
    obtain ⟨hg, hshown⟩ := hchild
    have hi := hopen.left_length
    obtain ⟨first, second, hframes, hfirst, hne, hsecond, hcounted⟩ := hshown.parts
    have hinorder : inorder ⟨id, before ++ m :: after, left ++ d :: e :: right⟩ =
        weave (left.map inorder) before ++ (Growth.halves d m e).inorder ++
          weave ([] :: right.map inorder) after := by
      rw [inorder_open hi, List.map_cons, weave_cons_cons, weave_cons e.inorder]
      simp [Growth.inorder]
    refine ⟨?_, ?_⟩
    · rw [insert_opened hi hroute.takeWhile_eq, hg, ok_map, receive, withHalves_append hi]
    · have hpromotion := still_promotionFrames ⟨id, before ++ after, left ++ c :: right⟩
        before.length d m e l
      have hmiddle : Shows (inorder ⟨id, before ++ m :: after, left ++ d :: e :: right⟩)
          (second.map (Frame.within (picture ⟨id, before ++ after, left ++ c :: right⟩)
            before.length) ++
          promotionFrames ⟨id, before ++ after, left ++ c :: right⟩ before.length d m e l) := by
        rw [hinorder]
        refine (hsecond.within hi).append fun f hf => ?_
        rw [(hpromotion f hf).1, inorder_withChild hi id c (inorder_proposal _ d m e),
          List.map_append, List.map_append]
      have hsearch : Still (picture ⟨id, before ++ after, left ++ c :: right⟩) ledger.counters
          (descentFrames ⟨id, before ++ after, left ++ c :: right⟩ k before.length
              ledger.counters ++
            first.map (Frame.within (picture ⟨id, before ++ after, left ++ c :: right⟩)
              before.length)) :=
        (still_descentFrames _ k _ _).append (hfirst.within hi)
      have hshown' := shown_settle (hopen.balanced_halves hd he id m) hlen hsearch hmiddle
        ((hcounted.within _ _).append hpromotion.counted) before.length true
        (Highlight.none.slotBelow
          (picture ⟨id, before ++ m :: after, left ++ d :: e :: right⟩) before.length)
      rw [insertFrames_opened hi hroute.takeWhile_eq id hg, hframes, List.map_append,
        receiveFrames, withHalves_append hi]
      simpa only [List.append_assoc, receivedFrames] using hshown'

end Node

/-! ## The whole insertion -/

namespace Growth

theorem still_rootFrames (d : Node Key) (m : Key) (e : Node Key) (ledger : Ledger) :
    Still (proposal ledger.proposedId d m e) ledger.counters
      (rootFrames (.halves d m e, ledger)) := by
  simp [Still, rootFrames]

/-- A new root is shown with the identity that was proposed for it. -/
theorem picture_root (d : Node Key) (m : Key) (e : Node Key) (ledger : Ledger) :
    proposal ledger.proposedId d m e =
      { (root (.halves d m e, ledger)).1.picture with
        id := (root (.halves d m e, ledger)).1.id + 9 } := by
  rw [root, Node.picture_mk]
  rfl

/-- The frames end with the tree that has a root again. -/
theorem Shown.exists_last {n : Node Key} {g : Growth × Ledger} {frames : List Frame} {held : Nat}
    (hs : Shown ledger n g frames) (hfilled : g.1.Filled capacity h held) :
    ∃ last, (frames ++ rootFrames g).getLast? = some last ∧
      last.counters = (root g).2.counters ∧
      ((root g).1.height = h ∧ last.picture = (root g).1.picture ∨
        (root g).1.height = h + 1 ∧
          last.picture = { (root g).1.picture with id := (root g).1.id + 9 }) := by
  obtain ⟨g, l⟩ := g
  cases g with
  | whole d =>
      obtain ⟨first, second, rfl, -, hne, -⟩ := hs.parts
      rw [rootFrames, List.append_nil]
      obtain ⟨last, hlast⟩ : ∃ last, (first ++ second).getLast? = some last := by
        rw [← Option.ne_none_iff_exists']
        simp [hne]
      obtain ⟨hpicture, hcounters⟩ := hs.ends d rfl last hlast
      exact ⟨last, hlast, hcounters, .inl ⟨hfilled.1.height_eq, hpicture⟩⟩
  | halves d m e =>
      have hopen : Node.Opened capacity h ([] : List Key) [] [] [] := ⟨rfl, rfl, by simp⟩
      have hheight := (hopen.balanced_halves hfilled.1 hfilled.2 l.freshId m).height_eq
      refine ⟨_, by rw [rootFrames, List.getLast?_append_of_ne_nil _ (by simp)]; rfl, rfl,
        .inr ⟨hheight, picture_root d m e l⟩⟩

/-- The frames of the new root belong to those that show the keys after. -/
theorem Shown.root {n : Node Key} {g : Growth × Ledger} {frames : List Frame}
    (hs : Shown ledger n g frames) :
    ∃ first second, frames ++ rootFrames g = first ++ second ∧
      Still n.picture ledger.counters first ∧ second ≠ [] ∧ Shows (root g).1.inorder second ∧
      Counted ledger.counters second (root g).2.counters := by
  obtain ⟨first, second, rfl, hfirst, hne, hsecond, hcounted⟩ := hs.parts
  rw [inorder_root]
  obtain ⟨g, l⟩ := g
  cases g with
  | whole d =>
      exact ⟨first, second, List.append_nil _, hfirst, hne, hsecond, hcounted⟩
  | halves d m e =>
      have hstill := still_rootFrames d m e l
      refine ⟨first, _, List.append_assoc .., hfirst, by simp [hne], hsecond.append fun f hf => ?_,
        hcounted.append hstill.counted⟩
      rw [(hstill f hf).1, Node.inorder_proposal]

end Growth

namespace Tree

variable {t : Tree}

/-- **The frames of an insertion conserve keys.** They first show the keys before, from left to
right, and then the keys after. Their counters begin with those before, never fall, and end with
those after. The last frame shows the tree as it is, only that a new root has the identity that was
proposed for it. -/
theorem Valid.add_frames (ht : t.Valid) (hk : k.kind = t.kind) :
    ∃ u first second, t.add k = .ok u ∧ t.addFrames k = first ++ second ∧
      u.recording = t.recording.map (· ++ (first ++ second)) ∧
      (first ≠ [] ∧ ∀ f ∈ first, f.picture.inorder = t.keys.map Key.label) ∧
      (second ≠ [] ∧ ∀ f ∈ second, f.picture.inorder = u.keys.map Key.label) ∧
      (first ++ second).head?.map Frame.counters = some t.counters ∧
      ((first ++ second).map Frame.counters).Pairwise (· ≤ ·) ∧
      ∃ last, (first ++ second).getLast? = some last ∧ last.counters = u.counters ∧
        (u.height = t.height ∧ last.picture = u.picture ∨
          u.height = t.height + 1 ∧
            last.picture = { u.picture with id := u.root.id + 9 }) := by
  obtain ⟨h, hbal, hlen, -⟩ := t.valid_iff.1 ht
  have hcap := t.two_le_maxKeys
  obtain ⟨g, hg, hfilled, hshown⟩ := Node.shown_insert (k := k) (by omega) hbal hlen t.ledger
  have hadd : t.add k =
      .ok (t.advance (Growth.root g).1 (Growth.root g).2 fun _ => t.addFrames k) := by
    simp [add, hk, hg]
  obtain ⟨first, second, hframes, hfirst, hne, hsecond, hcounted⟩ := hshown.root
  obtain ⟨last, hlast, hcounters, hpicture⟩ := hshown.exists_last hfilled
  have hparts : t.addFrames k =
      (t.announcement ("Inserting " ++ k.label) :: first) ++ second := by
    rw [addFrames, hg, ok_toOption, Option.toList_some, List.flatMap_singleton, List.cons_append,
      List.cons_append, hframes]
  have hfirst' : Still t.root.picture t.counters
      (t.announcement ("Inserting " ++ k.label) :: first) :=
    List.forall_mem_cons.2 ⟨⟨rfl, rfl⟩, hfirst⟩
  refine ⟨_, _, second, hadd, hparts, by rw [← hparts]; rfl, ⟨by simp, hfirst'.shows⟩,
    ⟨hne, hsecond⟩, rfl, (hfirst'.counted.append hcounted).sorted, last, ?_, hcounters, ?_⟩
  · rw [List.cons_append, ← hframes, ← List.singleton_append, List.getLast?_append, hlast]
    rfl
  · have hheight : t.height = h := hbal.height_eq
    rw [hheight]
    exact hpicture

/-- A key that divides a full root while the tree is recording. -/
theorem add_frames_new_root :
    let t : Tree := ⟨2, .text, ⟨1, [.text "a", .text "b"], []⟩, ⟨1, {}⟩, some [], by decide⟩
    let u : Tree := ⟨2, .text, ⟨3, [.text "b"], [⟨1, [.text "a"], []⟩, ⟨2, [.text "c"], []⟩]⟩,
      ⟨3, ⟨1, 0, 0, 0⟩⟩, some (t.addFrames (.text "c")), by decide⟩
    t.Valid ∧ t.add (.text "c") = .ok u ∧
      ∃ first second, t.addFrames (.text "c") = first ++ second ∧
        (first ≠ [] ∧ ∀ f ∈ first, f.picture.inorder = ["a", "b"]) ∧
        (second ≠ [] ∧ ∀ f ∈ second, f.picture.inorder = ["a", "b", "c"]) ∧
        ((first ++ second).map Frame.counters).Pairwise (· ≤ ·) ∧
        ∃ last, (first ++ second).getLast? = some last ∧ last.counters = ⟨1, 0, 0, 0⟩ ∧
          last.picture = { u.picture with id := 12 } := by
  intro t u
  have ht : t.Valid := (check_eq_ok_iff t).1 (by decide)
  have hadd : t.add (.text "c") = .ok u := by rfl
  obtain ⟨v, first, second, hv, hframes, -, hfirst, hsecond, -, hsorted, last, hlast, hcounters,
    hpicture⟩ := ht.add_frames (k := .text "c") rfl
  obtain rfl : u = v := Except.ok.inj (hadd.symm.trans hv)
  refine ⟨ht, hadd, first, second, hframes, hfirst, hsecond, hsorted, last, hlast, hcounters, ?_⟩
  exact (hpicture.resolve_left fun h => absurd h.1 (by decide)).2

end Tree

end TracedTree
