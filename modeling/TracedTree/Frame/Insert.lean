import TracedTree.Frame

/-!
# Frames of an insertion

What is shown while a key is inserted: the search for its place from the right end of each node,
the way down, and for every node that comes to hold too many keys the overflow, the chosen key,
and a proposed node that lifts this key above both halves before it is put into the parent or
becomes the root. The proposed node has an identity that no live node has.

`Node.insertFrames` gives frames of the subtree alone. The parent shows them in the place of the
child, and it is the parent that shows the halves of a divided child.
-/

namespace TracedTree

/-- The mark behind a key that is being compared: the search goes on, or it ends here. -/
def searchMark (found : Bool) : String := if found then "✓" else "?"

namespace Node

/-- The search for the place of a key stands at a gap: it ends there unless the key on the left
of the gap stands behind the searched key. -/
def gapProbe (n : Node Key) (k : Key) (gap : Nat) : String :=
  let ends := match gap with
    | 0 => true
    | slot + 1 => !(n.keys[slot]?.any k.lt)
  k.label ++ " " ++ searchMark ends

/-- The gaps of a node from the right end down to a given one, each with its probe. -/
def probeFrames (n : Node Key) (k : Key) (lowest : Nat) (counters : Counters) : List Frame :=
  let shown := n.picture
  (List.range' lowest (n.keys.length + 1 - lowest)).reverse.map fun gap =>
    ⟨shown, (Highlight.none.node n.id false "finding position").separator n.id gap
      (n.gapProbe k gap), counters⟩

/-- A node with one key too many: the key that came in, the overflow, and the middle key. What
hangs from a key that came up from a divided child is shown with it. -/
def overflowFrames (n : Node Key) (slot : Nat) (cameUp : Bool) (counters : Counters) :
    List Frame :=
  let shown := n.picture
  let arrived := Highlight.none.index n.id slot ""
  let overflow := Highlight.none.node n.id true "Overflow"
  [⟨shown, if cameUp then arrived.slotBelow shown slot else arrived, counters⟩,
    ⟨shown, overflow, counters⟩,
    ⟨shown, overflow.index n.id n.middle ("Splitting at " ++ shown.keys[n.middle]?.getD ""),
      counters⟩]

/-- The search in a leaf, and the key in it. An empty leaf has no gaps to search. -/
def leafInsertFrames (n : Node Key) (capacity : Nat) (k : Key) (counters : Counters) :
    List Frame :=
  let slot := n.slotFor k
  let filled := n.withKey k
  let probes := if n.keys.isEmpty then [] else n.probeFrames k slot counters
  probes ++
    if filled.keys.length ≤ capacity then
      [⟨filled.picture, Highlight.none.index n.id slot "", counters⟩]
    else filled.overflowFrames slot false counters

/-- The search in an inner node and the step down to child `i`. -/
def descentFrames (n : Node Key) (k : Key) (i : Nat) (counters : Counters) : List Frame :=
  n.probeFrames k i counters ++
    (n.children[i]?.toList.map fun child =>
      ⟨n.picture, (Highlight.none.node child.id true "").edge n.id child.id true, counters⟩)

end Node

/-- Two halves below a node that holds only the key between them. -/
def proposal (id : Nat) (left : Node Key) (median : Key) (right : Node Key) : Picture :=
  ⟨id, [median.label], [left.picture, right.picture]⟩

/-- The emphasis on a proposed node and its halves. -/
def Highlight.proposed (id : Nat) (left right : Node Key) : Highlight :=
  (((Highlight.none.index id 0 "").node id true "").node left.id true "").node right.id true ""

namespace Node

/-- The halves of child `i` below a proposed node, which is then drawn into the parent. -/
def promotionFrames (n : Node Key) (i : Nat) (left : Node Key) (median : Key) (right : Node Key)
    (ledger : Ledger) : List Frame :=
  let id := ledger.proposedId
  let lifted := proposal id left median right
  let shown := n.picture.withChild i lifted
  let inward := (Highlight.none.node id false "insert into Parent").slotBelow lifted 0
  let drawn := (((Highlight.none.slotBelow lifted 0).node n.id true "").separator n.id i "").edge
    n.id id true
  [⟨shown, .proposed id left right, ledger.counters⟩, ⟨shown, inward, ledger.counters⟩,
    ⟨shown, drawn, ledger.counters⟩]

/-- What a node shows when its child `i` has grown: nothing for a whole child; for halves their
promotion, and then the node with them or its overflow. -/
def receiveFrames (n : Node Key) (capacity i : Nat) : Growth × Ledger → List Frame
  | (.whole _, _) => []
  | (.halves left median right, ledger) =>
    let filled := n.withHalves i left median right
    n.promotionFrames i left median right ledger ++
      if filled.keys.length ≤ capacity then
        [⟨filled.picture, Highlight.none.slotBelow filled.picture i, ledger.counters⟩]
      else filled.overflowFrames i true ledger.counters

mutual

/-- The frames of an insertion below a node. -/
def insertFrames (capacity : Nat) (k : Key) (ledger : Ledger) : Node Key → List Frame
  | ⟨id, keys, children⟩ =>
    let n : Node Key := ⟨id, keys, children⟩
    let i := n.childIndex k
    if children.isEmpty then n.leafInsertFrames capacity k ledger.counters
    else
      n.descentFrames k i ledger.counters ++
        (insertFramesAt capacity k ledger i children).map (Frame.within n.picture i) ++
        ((insertAt capacity k ledger i children).toOption.toList.flatMap
          (n.receiveFrames capacity i))

/-- The frames of an insertion below the node at a position of a list. -/
def insertFramesAt (capacity : Nat) (k : Key) (ledger : Ledger) :
    Nat → List (Node Key) → List Frame
  | _, [] => []
  | 0, c :: _ => insertFrames capacity k ledger c
  | i + 1, _ :: cs => insertFramesAt capacity k ledger i cs

end

end Node

/-- What is shown when the root itself has grown: two halves below a proposed root. -/
def Growth.rootFrames : Growth × Ledger → List Frame
  | (.whole _, _) => []
  | (.halves left median right, ledger) =>
    let id := ledger.proposedId
    let shown := proposal id left median right
    [⟨shown, .proposed id left right, ledger.counters⟩,
      ⟨shown, (Highlight.none.node id false "new Root").index id 0 "", ledger.counters⟩]

end TracedTree
