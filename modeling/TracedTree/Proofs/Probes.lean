import TracedTree.Proofs.RemoveHighlights

/-!
# Probes

While an operation looks for the place of a key, each frame compares the key at one place of one
node: it is emphasized as a node that is searched, and the place has a message. `Frame.probes`
reads these comparisons back from what a frame emphasizes. All other frames of an operation have
none, since no message of theirs is that of a search.

## Main definitions

* `Place`, `Probe`: a gap or a slot of a node, and the message that is shown there.
* `Frame.probes f`: the probes that a frame shows.
* `Node.sweep`: the probes of a node from its right end down to a place.
* `Unprobed frames`: the frames show no probes.
-/

namespace TracedTree

/-- A place of a node at which a search can stand. -/
inductive Place where
  | gap (i : Nat)
  | slot (i : Nat)
deriving DecidableEq

/-- A place of a node with the message that a search shows there. -/
structure Probe where
  id : Nat
  place : Place
  message : String
deriving DecidableEq

/-- The last character of the message, which marks the probe. -/
def Probe.mark (p : Probe) : Option Char := p.message.toList.getLast?

/-- A searched node has one of two messages. -/
def NodeHighlight.searched (n : NodeHighlight) : Bool :=
  n.message == "finding position" || n.message == "finding Key"

/-- The gaps and slots with a message, if the node is searched. -/
def NodeHighlight.probes (id : Nat) (n : NodeHighlight) : List Probe :=
  if n.searched then
    n.separatorMessages.entries.map (fun e => ⟨id, .gap e.1, e.2⟩) ++
      n.indexMessages.entries.map fun e => ⟨id, .slot e.1, e.2⟩
  else []

/-- The probes that a frame shows. -/
def Frame.probes (f : Frame) : List Probe :=
  f.highlight.nodes.entries.flatMap fun e => e.2.probes e.1

/-! ## Sweeps -/

/-- The numbers below a bound, from the greatest down to a given one. -/
def downTo (low bound : Nat) : List Nat := (List.range' low (bound - low)).reverse

section DownTo

variable {low bound i : Nat}

theorem mem_downTo : i ∈ downTo low bound ↔ low ≤ i ∧ i < bound := by
  rw [downTo, List.mem_reverse, List.mem_range'_1]
  omega

theorem downTo_eq (h : low < bound) : downTo low bound = downTo (low + 1) bound ++ [low] := by
  obtain ⟨d, rfl⟩ := Nat.exists_eq_add_of_lt h
  have hd : low + d + 1 - low = d + 1 := by omega
  have hd' : low + d + 1 - (low + 1) = d := by omega
  rw [downTo, downTo, hd, hd', List.range'_succ, List.reverse_cons]

/-- Nothing is left out on the way down. -/
theorem starts_downTo (h : low ≤ bound) : downTo low bound <+: downTo 0 bound := by
  have happend := List.range'_append_1 (s := 0) (m := low) (n := bound - low)
  rw [Nat.zero_add, Nat.add_sub_cancel' h] at happend
  rw [downTo, downTo, List.reverse_prefix, Nat.sub_zero, ← happend]
  exact List.suffix_append _ _

end DownTo

namespace Node

/-- The probes of a node at numbered places, from the right end down to the lowest. -/
def sweep (n : Node Key) (place : Nat → Place) (message : Nat → String) (low bound : Nat) :
    List Probe :=
  (downTo low bound).map fun i => ⟨n.id, place i, message i⟩

end Node

/-! ## Frames with a probe -/

section Probed

variable {p : Picture} {id i : Nat} {finding message : String} {c : Counters}

/-- What is emphasized at a single node decides on the probes. -/
theorem probes_onNode (f : NodeHighlight → NodeHighlight) :
    Frame.probes ⟨p, (Highlight.none.node id false finding).onNode id f, c⟩ =
      (f { NodeHighlight.none with message := finding }).probes id := by
  simp [Frame.probes, Highlight.node, Highlight.onNode, Highlight.none, NodeHighlight.none,
    Table.alter, Table.insert, Table.insertEntry, Table.get?, Table.empty]

theorem probes_separator (h : finding = "finding position" ∨ finding = "finding Key") :
    Frame.probes ⟨p, (Highlight.none.node id false finding).separator id i message, c⟩ =
      [⟨id, .gap i, message⟩] := by
  rw [Highlight.separator, probes_onNode]
  rcases h with rfl | rfl <;> rfl

theorem probes_index (h : finding = "finding position" ∨ finding = "finding Key") :
    Frame.probes ⟨p, (Highlight.none.node id false finding).index id i message, c⟩ =
      [⟨id, .slot i, message⟩] := by
  rw [Highlight.index, probes_onNode]
  rcases h with rfl | rfl <;> rfl

end Probed

namespace Node

variable {n : Node Key} {k : Key}

/-- Even places of an inner node are gaps, odd ones are slots. -/
def searchPlace (place : Nat) : Place :=
  if place % 2 = 1 then .slot (place / 2) else .gap (place / 2)

/-- What the search for a key shows at a place of an inner node. -/
def searchMessage (n : Node Key) (k : Key) (last place : Nat) : String :=
  (if place % 2 = 1 then k.label else n.gapRange (place / 2) k) ++ " " ++
    searchMark (place == last)

/-- What the search for a key shows at a slot of a leaf. -/
def slotMessage (n : Node Key) (k : Key) (slot : Nat) : String :=
  k.label ++ " " ++ searchMark (n.slotOf? k == some slot)

theorem probes_probeFrames (n : Node Key) (k : Key) (low : Nat) (c : Counters) :
    (n.probeFrames k low c).flatMap Frame.probes =
      n.sweep .gap (n.gapProbe k) low (n.keys.length + 1) := by
  rw [probeFrames, List.flatMap_map, sweep, List.map_eq_flatMap]
  exact List.flatMap_congr fun gap _ => probes_separator (.inl rfl)

theorem probes_searchFrames (n : Node Key) (k : Key) (last : Nat) (c : Counters) :
    (n.searchFrames k last c).flatMap Frame.probes =
      n.sweep searchPlace (n.searchMessage k last) last (2 * n.keys.length + 1) := by
  rw [searchFrames, List.flatMap_map, sweep, List.map_eq_flatMap]
  refine List.flatMap_congr fun place _ => ?_
  simp only [searchStep, searchPlace, searchMessage]
  split
  · exact probes_index (.inr rfl)
  · exact probes_separator (.inr rfl)

theorem probes_leafSearchFrames (n : Node Key) (k : Key) (c : Counters) :
    (n.leafSearchFrames k c).flatMap Frame.probes =
      n.sweep .slot (n.slotMessage k) ((n.slotOf? k).getD 0) n.keys.length := by
  rw [leafSearchFrames, List.flatMap_map, sweep, List.map_eq_flatMap]
  exact List.flatMap_congr fun slot _ => probes_index (.inr rfl)

end Node

/-! ## Frames without probes -/

/-- No node is emphasized as one that is searched. -/
def Highlight.Quiet (h : Highlight) : Prop :=
  ∀ e ∈ h.nodes.entries, e.2.searched = false

/-- The message is not that of a search: it begins with another letter. -/
def Plain (message : String) : Prop := message.toList.head? ≠ some 'f'

instance (message : String) : Decidable (Plain message) :=
  inferInstanceAs (Decidable (_ ≠ _))

theorem plain_append (message more : String) (h : Plain message) (hne : message ≠ "") :
    Plain (message ++ more) := by
  have hlist : message.toList ≠ [] := by simpa using hne
  rwa [Plain, String.toList_append, List.head?_append_of_ne_nil _ hlist]

namespace Highlight

variable {h : Highlight} {id i : Nat} {p : Picture}

theorem quiet_none : none.Quiet := nofun

theorem Quiet.onNode {f : NodeHighlight → NodeHighlight} (hh : h.Quiet)
    (hf : ∀ n : NodeHighlight, n.searched = false → (f n).searched = false) :
    (h.onNode id f).Quiet := by
  intro e he
  rcases Table.mem_entries_alter he with he | rfl | ⟨n, hn, rfl⟩
  · exact hh e he
  · exact hf _ rfl
  · exact hf n (hh _ hn)

theorem Quiet.node (hh : h.Quiet) (id : Nat) (full : Bool) {message : String}
    (hplain : Plain message) : (h.node id full message).Quiet := by
  refine hh.onNode fun n _ => ?_
  simp only [NodeHighlight.searched, Bool.or_eq_false_iff, beq_eq_false_iff_ne]
  constructor <;> (rintro rfl; exact hplain (by decide))

theorem Quiet.index (hh : h.Quiet) (id i : Nat) (message : String) :
    (h.index id i message).Quiet := hh.onNode fun _ hn => hn

theorem Quiet.separator (hh : h.Quiet) (id i : Nat) (message : String) :
    (h.separator id i message).Quiet := hh.onNode fun _ hn => hn

theorem Quiet.edge (hh : h.Quiet) (source target : Nat) (full : Bool) :
    (h.edge source target full).Quiet := hh

theorem Quiet.foldl {ι : Type} {f : Highlight → ι → Highlight} (hh : h.Quiet)
    (hf : ∀ (h : Highlight) (x : ι), h.Quiet → (f h x).Quiet) (xs : List ι) :
    (xs.foldl f h).Quiet := by
  induction xs generalizing h with
  | nil => exact hh
  | cons x xs ih => exact ih (hf h x hh)

theorem Quiet.ownSlots (hh : h.Quiet) (p : Picture) : (h.ownSlots p).Quiet :=
  (hh.foldl (fun _ _ hh => hh.index _ _ _) _).foldl (fun _ _ hh => hh.edge _ _ _) _

theorem Quiet.below (hh : h.Quiet) (p : Picture) : (h.below p).Quiet :=
  hh.foldl (fun _ _ hh => hh.ownSlots _) _

theorem Quiet.slotBelow (hh : h.Quiet) (p : Picture) (i : Nat) : (h.slotBelow p i).Quiet :=
  (hh.index _ _ _).foldl (fun _ _ hh => (hh.edge _ _ _).below _) _

theorem Quiet.slotsBelow (hh : h.Quiet) (p : Picture) (slots : List Nat) :
    (h.slotsBelow p slots).Quiet :=
  hh.foldl (fun _ _ hh => hh.slotBelow _ _) _

end Highlight

/-- The frames show no probes. -/
def Unprobed (frames : List Frame) : Prop := ∀ f ∈ frames, f.highlight.Quiet

section Unprobed

variable {frames more : List Frame}

theorem unprobed_nil : Unprobed [] := List.forall_mem_nil _

theorem unprobed_cons {f : Frame} :
    Unprobed (f :: frames) ↔ f.highlight.Quiet ∧ Unprobed frames := List.forall_mem_cons

theorem unprobed_singleton {f : Frame} : Unprobed [f] ↔ f.highlight.Quiet :=
  List.forall_mem_singleton

theorem unprobed_append : Unprobed (frames ++ more) ↔ Unprobed frames ∧ Unprobed more :=
  List.forall_mem_append

theorem unprobed_elim {α : Type} (o : Option α) {f : α → List Frame}
    (h : ∀ a, Unprobed (f a)) : Unprobed (o.elim [] f) := by
  cases o with
  | none => exact unprobed_nil
  | some a => exact h a

theorem Unprobed.within (h : Unprobed frames) (p : Picture) (i : Nat) :
    Unprobed (frames.map (Frame.within p i)) :=
  List.forall_mem_map.2 h

theorem Unprobed.probes_eq (h : Unprobed frames) : frames.flatMap Frame.probes = [] := by
  refine List.flatMap_eq_nil_iff.2 fun f hf => List.flatMap_eq_nil_iff.2 fun e he => ?_
  rw [NodeHighlight.probes, h f hf e he]
  rfl

/-- The parent shows the probes of its child. -/
theorem probes_within (frames : List Frame) (p : Picture) (i : Nat) :
    (frames.map (Frame.within p i)).flatMap Frame.probes = frames.flatMap Frame.probes :=
  List.flatMap_map ..

end Unprobed

namespace Node

variable {n : Node Key} {capacity h : Nat}

/-! ## Insertion -/

theorem unprobed_overflowFrames (n : Node Key) (slot : Nat) (cameUp : Bool) (c : Counters) :
    Unprobed (n.overflowFrames slot cameUp c) := by
  have harrived := Highlight.quiet_none.index n.id slot ""
  have hoverflow := Highlight.quiet_none.node n.id true (by decide : Plain "Overflow")
  simp only [overflowFrames, unprobed_cons]
  refine ⟨?_, hoverflow, hoverflow.index _ _ _, unprobed_nil⟩
  cases cameUp with
  | false => exact harrived
  | true => exact harrived.slotBelow _ _

theorem unprobed_receivedFrames (n : Node Key) (slot : Nat) (cameUp : Bool) {arrived : Highlight}
    (harrived : arrived.Quiet) (c : Counters) :
    Unprobed (n.receivedFrames capacity slot cameUp arrived c) := by
  rw [receivedFrames]
  split
  · exact unprobed_singleton.2 harrived
  · exact n.unprobed_overflowFrames slot cameUp c

end Node

theorem Highlight.quiet_proposed (id : Nat) (left right : Node Key) :
    (Highlight.proposed id left right).Quiet :=
  (((quiet_none.index id 0 "").node id true (by decide)).node left.id true (by decide)).node
    right.id true (by decide)

namespace Node

theorem unprobed_promotionFrames (n : Node Key) (i : Nat) (left : Node Key) (median : Key)
    (right : Node Key) (ledger : Ledger) :
    Unprobed (n.promotionFrames i left median right ledger) := by
  simp only [promotionFrames, unprobed_cons]
  refine ⟨Highlight.quiet_proposed _ _ _, ?_, ?_, unprobed_nil⟩
  · exact (Highlight.quiet_none.node _ false (by decide)).slotBelow _ _
  · exact (((Highlight.quiet_none.slotBelow _ _).node _ true (by decide)).separator _ _ _).edge
      _ _ _

theorem unprobed_receiveFrames (n : Node Key) (capacity i : Nat) (g : Growth × Ledger) :
    Unprobed (n.receiveFrames capacity i g) := by
  obtain ⟨g, l⟩ := g
  cases g with
  | whole d => exact unprobed_nil
  | halves d m e =>
      exact unprobed_append.2 ⟨n.unprobed_promotionFrames i d m e l,
        unprobed_receivedFrames _ _ true (Highlight.quiet_none.slotBelow _ _) _⟩

end Node

theorem Growth.unprobed_rootFrames (g : Growth × Ledger) : Unprobed (Growth.rootFrames g) := by
  obtain ⟨g, l⟩ := g
  cases g with
  | whole d => exact unprobed_nil
  | halves d m e =>
      simp only [rootFrames, unprobed_cons]
      exact ⟨Highlight.quiet_proposed _ _ _,
        (Highlight.quiet_none.node _ false (by decide)).index _ _ _, unprobed_nil⟩

/-! ## Repairs -/

theorem Seam.unprobed_mergeFrames (s : Seam) (slot : Nat) (ledger : Ledger) :
    Unprobed (s.mergeFrames slot ledger) := by
  simp only [mergeFrames, unprobed_cons]
  refine ⟨?_, ?_, unprobed_nil⟩
  · exact ((Highlight.quiet_none.index _ _ _).node _ true (by decide)).node _ true (by decide)
  · exact (Highlight.quiet_none.node _ true (by decide)).index _ _ _

namespace Rotation

theorem quiet_both (r : Rotation) {message : String} (h : Plain message) :
    (r.both message).Quiet :=
  (Highlight.quiet_none.node _ true h).node _ true (by decide)

theorem unprobed_frames (r : Rotation) (start finish : Counters) :
    Unprobed (r.frames start finish) := by
  have hboth : (r.both "").Quiet := r.quiet_both (by decide)
  have hsize : Plain (if r.moved.isSome then "Big" else "Small") ∧
      (if r.moved.isSome then "Big" else "Small") ≠ "" := by
    split <;> decide
  have hstart := r.quiet_both (plain_append _ (" Rotation with " ++ r.side ++ " Sibling")
    hsize.1 hsize.2)
  simp only [frames, unprobed_append, unprobed_cons]
  refine ⟨⟨?_, (hboth.index _ _ _).index _ _ _, unprobed_nil⟩, ?_⟩
  · simpa only [String.append_assoc] using hstart
  · cases r.moved with
    | none => exact unprobed_singleton.2 ((hboth.index _ _ _).index _ _ _)
    | some moved =>
        simp only [transferFrames, unprobed_append, unprobed_cons]
        exact ⟨⟨(hboth.index _ _ _).index _ _ _,
          ((hboth.node _ false (by decide)).separator _ _ _).slotsBelow _ _, unprobed_nil⟩,
          hboth.slotsBelow _ _, unprobed_nil⟩

end Rotation

namespace Node

variable {n : Node Key}

theorem quiet_mergeNotice (n : Node Key) (childId siblingId : Nat) (side : String)
    (ledger : Ledger) : (n.mergeNotice childId siblingId side ledger).highlight.Quiet := by
  have hplain := plain_append "Merge with " (side ++ " Sibling") (by decide) (by decide)
  rw [← String.append_assoc] at hplain
  exact (Highlight.quiet_none.node _ true hplain).node _ true (by decide)

theorem unprobed_planFrames (n : Node Key) (i : Nat) (ledger : Ledger) (plan : Repair) :
    Unprobed (n.planFrames i ledger plan) := by
  have hmerge : ∀ (s : Seam) (childId siblingId slot : Nat) (side : String),
      Unprobed (n.mergeNotice childId siblingId side ledger :: s.mergeFrames slot ledger) :=
    fun s _ _ _ _ => unprobed_cons.2
      ⟨n.quiet_mergeNotice _ _ _ _, s.unprobed_mergeFrames _ _⟩
  cases plan with
  | keep => exact unprobed_nil
  | mergeLeft => exact unprobed_elim _ fun s => hmerge s _ _ _ _
  | mergeRight => exact unprobed_elim _ fun s => hmerge s _ _ _ _
  | rotateRight => exact unprobed_elim _ fun s => unprobed_elim _ fun t =>
      Rotation.unprobed_frames _ _ _
  | rotateLeft => exact unprobed_elim _ fun s => unprobed_elim _ fun t =>
      Rotation.unprobed_frames _ _ _

theorem unprobed_repairFrames (n : Node Key) (minimum i : Nat) (ledger : Ledger) :
    Unprobed (n.repairFrames minimum i ledger) := by
  rw [repairFrames]
  split
  · exact unprobed_nil
  · exact unprobed_cons.2 ⟨Highlight.quiet_none.node _ true (by decide),
      n.unprobed_planFrames i ledger _⟩
  · exact unprobed_nil

/-! ## Removal -/

theorem unprobed_removeMax {capacity h : Nat} {ledger : Ledger} (hcap : 2 ≤ capacity)
    (hn : n.Balanced capacity h) (hne : n.keys ≠ []) :
    Unprobed (n.removeMaxFrames (capacity / 2) ledger) := by
  induction h generalizing n with
  | zero =>
      obtain ⟨id, keys, children⟩ := n
      obtain rfl : children = [] := hn
      rw [removeMaxFrames_leaf _ _ _ hne]
      exact unprobed_singleton.2 Highlight.quiet_none
  | succ h ih =>
      obtain ⟨left, c, hn', hopen, hc⟩ := hn.opened_last
      have hkeys := hc.keys_ne_nil hcap
      obtain ⟨e, he, -⟩ := exists_removeMax hcap hc.1 hkeys ledger
      simp only [List.append_nil] at hn'
      rw [hn', removeMaxFrames_opened hopen.left_length he]
      exact unprobed_append.2 ⟨(ih hc.1 hkeys).within _ _, unprobed_repairFrames _ _ _ _⟩

theorem quiet_spineSteps {base : Highlight} (hbase : base.Quiet) (spine : List (Node Key)) :
    ∀ step ∈ spineSteps base spine, step.Quiet := by
  induction spine with
  | nil => exact nofun
  | cons n rest ih =>
      cases rest with
      | nil => exact List.forall_mem_singleton.2 (hbase.index _ _ _)
      | cons c rest =>
          rw [spineSteps, List.forall_mem_cons, List.forall_mem_cons]
          exact ⟨(hbase.node _ true (by decide)).edge _ _ _, hbase.node _ false (by decide), ih⟩

/-- Of the frames on the way to the predecessor only the search shows probes. -/
theorem probes_predecessorFrames (n child : Node Key) (k : Key) (i : Nat) (c : Counters) :
    (n.predecessorFrames child k i c).flatMap Frame.probes =
      n.sweep searchPlace (n.searchMessage k (2 * i + 1)) (2 * i + 1)
        (2 * n.keys.length + 1) := by
  have hslot := Highlight.quiet_none.index n.id i ""
  rw [predecessorFrames, List.flatMap_append, probes_searchFrames]
  refine (congrArg _ (Unprobed.probes_eq ?_)).trans (List.append_nil _)
  refine List.forall_mem_map.2 (List.forall_mem_append.2 ⟨?_, quiet_spineSteps hslot _⟩)
  simp only [List.forall_mem_cons]
  exact ⟨(Highlight.quiet_none.node _ false (by decide)).index _ _ _,
    (hslot.edge _ _ _).node _ true (by decide), hslot.node _ false (by decide),
    List.forall_mem_nil _⟩

theorem unprobed_exchangeFrames (n child : Node Key) (i : Nat) (c : Counters) :
    Unprobed (n.exchangeFrames child i c) :=
  unprobed_singleton.2 ((((Highlight.quiet_none.index _ _ _).node _ true
    (by decide)).index _ _ _).node _ true (by decide))

theorem unprobed_enterFrames (n : Node Key) (i : Nat) (c : Counters) :
    Unprobed (n.enterFrames i c) :=
  List.forall_mem_map.2 fun _ _ => (Highlight.quiet_none.edge _ _ _).node _ true (by decide)

theorem unprobed_collapseFrames (n : Node Key) (ledger : Ledger) :
    Unprobed (n.collapseFrames ledger) := by
  rw [collapseFrames]
  split
  · exact unprobed_singleton.2 (Highlight.quiet_none.node _ true (by decide))
  · exact unprobed_nil

end Node

theorem Tree.unprobed_announcement (t : Tree) {message : String} (h : Plain message) :
    Unprobed [t.announcement message] :=
  unprobed_singleton.2 (Highlight.quiet_none.node _ false h)

end TracedTree
