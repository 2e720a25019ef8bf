import TracedTree.Frame.Insert
import TracedTree.Node.Remove

/-!
# Frames of a removal

What is shown while a key is removed: the search from the right end of each node, for a key in an
inner node the way to its predecessor and the exchange, and then the repairs on the way back up.
The two frames of a big rotation in which the moving grandchild still hangs on the neighbour show
a tree that is not live: the raised key has left a blank behind, and an empty node stands where
the grandchild will be.
-/

namespace TracedTree

namespace Node

/-! ## The search -/

/-- The searched key between the keys on both sides of a gap, as far as there are any. -/
def gapRange (n : Node Key) (gap : Nat) (k : Key) : String :=
  let lower := match gap with
    | 0 => ""
    | slot + 1 => n.keys[slot]?.elim "" (·.label ++ " < ")
  let upper := n.keys[gap]?.elim "" (" < " ++ ·.label)
  lower ++ k.label ++ upper

/-- One place of the search in an inner node. Even places are gaps, odd places are slots. -/
def searchStep (n : Node Key) (k : Key) (place : Nat) (found : Bool) : Highlight :=
  let h := Highlight.none.node n.id false "finding Key"
  if place % 2 = 1 then h.index n.id (place / 2) (k.label ++ " " ++ searchMark found)
  else h.separator n.id (place / 2) (n.gapRange (place / 2) k ++ " " ++ searchMark found)

/-- The places of an inner node from the right end down to the one where the search ends. -/
def searchFrames (n : Node Key) (k : Key) (last : Nat) (counters : Counters) : List Frame :=
  let shown := n.picture
  (List.range' last (2 * n.keys.length + 1 - last)).reverse.map fun place =>
    ⟨shown, n.searchStep k place (place == last), counters⟩

/-- The step down to child `i`. -/
def enterFrames (n : Node Key) (i : Nat) (counters : Counters) : List Frame :=
  n.children[i]?.toList.map fun child =>
    ⟨n.picture, (Highlight.none.edge n.id child.id true).node child.id true "", counters⟩

/-- The slots of a leaf from the right end down to the one that holds the key, or to the first. -/
def leafSearchFrames (n : Node Key) (k : Key) (counters : Counters) : List Frame :=
  let shown := n.picture
  let found := n.slotOf? k
  let last := found.getD 0
  (List.range' last (n.keys.length - last)).reverse.map fun slot =>
    ⟨shown, (Highlight.none.node n.id false "finding Key").index n.id slot
      (k.label ++ " " ++ searchMark (found == some slot)), counters⟩

/-- The search in a leaf, and the leaf before and after the key is taken out. -/
def leafRemoveFrames (n : Node Key) (k : Key) (ledger : Ledger) : List Frame :=
  let counters := ledger.counters
  n.leafSearchFrames k counters ++
    match n.slotOf? k with
    | none =>
      [⟨n.picture, Highlight.none.node n.id true ("Key " ++ k.label ++ " not found"), counters⟩]
    | some slot =>
      [⟨n.picture, Highlight.none.index n.id slot ("removing " ++ k.label), counters⟩,
        ⟨(n.removeFromLeaf k ledger).node.picture, .none, counters⟩]

/-! ## The predecessor -/

mutual

/-- A node and its last children down to the leaf. -/
def rightSpine : Node Key → List (Node Key)
  | ⟨id, keys, children⟩ => ⟨id, keys, children⟩ :: rightSpineLast children

/-- The right spine of the last node of a list. -/
def rightSpineLast : List (Node Key) → List (Node Key)
  | [] => []
  | [c] => rightSpine c
  | _ :: cs => rightSpineLast cs

end

/-- The steps down a right spine and the largest key at its end, on top of a given emphasis. -/
def spineSteps (base : Highlight) : List (Node Key) → List Highlight
  | [] => []
  | [leaf] => [base.index leaf.id (leaf.keys.length - 1) "Predecessor"]
  | n :: child :: rest =>
    (base.node child.id true "").edge n.id child.id true ::
      base.node child.id false "Find Predecessor" :: spineSteps base (child :: rest)

/-- A key in slot `i` of an inner node is found, and its predecessor is searched below child
`i`. -/
def predecessorFrames (n child : Node Key) (k : Key) (i : Nat) (counters : Counters) :
    List Frame :=
  let slot := Highlight.none.index n.id i ""
  let steps :=
    [(Highlight.none.node n.id false "").index n.id i "Replace Key with Predecessor",
      (slot.edge n.id child.id true).node child.id true "",
      slot.node child.id false "Find Predecessor"] ++
    spineSteps slot child.rightSpine
  n.searchFrames k (2 * i + 1) counters ++ steps.map (⟨n.picture, ·, counters⟩)

/-- A key and its predecessor before they are exchanged. -/
def exchangeFrames (n child : Node Key) (i : Nat) (counters : Counters) : List Frame :=
  let leaf := child.rightSpine.getLast?.getD child
  let label := leaf.keys.getLast?.elim "" Key.label
  [⟨n.picture, (((Highlight.none.index n.id i ("Replace with " ++ label)).node n.id true "").index
    leaf.id (leaf.keys.length - 1) ("Remove " ++ label)).node leaf.id true "", counters⟩]

end Node

/-! ## Repairs -/

namespace Seam

/-- The node as it is. -/
def picture (s : Seam) : Picture := s.close.picture

/-- The key between two children, the children themselves, and then the merged child. -/
def mergeFrames (s : Seam) (slot : Nat) (ledger : Ledger) : List Frame :=
  [⟨s.picture, ((Highlight.none.index s.id slot "middle Key").node s.left.id true "").node
      s.right.id true "", ledger.counters⟩,
    ⟨s.merge.picture, (Highlight.none.node s.left.id true "Merged node").index s.left.id
      s.left.keys.length "", ledger.merge.counters⟩]

end Seam

/-- A rotation as it is shown: which child takes a key through which slot of the parent from
which slot of its neighbour, and which grandchild moves along. -/
structure Rotation where
  parentId : Nat
  /-- The slot of the parent through which the key goes. -/
  slot : Nat
  childId : Nat
  /-- The slot of the child that takes the separator. -/
  childSlot : Nat
  /-- The gap of the child below which a moved grandchild comes to stand. -/
  childGap : Nat
  siblingId : Nat
  /-- The slot of the neighbour that gives its key. -/
  siblingSlot : Nat
  /-- Where the neighbour stands. -/
  side : String
  /-- Where the keys go. -/
  direction : String
  /-- The grandchild that moves. -/
  moved : Option Picture
  before : Picture
  /-- The parent while the grandchild still hangs on the neighbour. -/
  between : Picture
  after : Picture

namespace Rotation

/-- The child and its neighbour. -/
def both (r : Rotation) (message : String) : Highlight :=
  (Highlight.none.node r.childId true message).node r.siblingId true ""

/-- All slots of a node. -/
def allSlots (n : Picture) : List Nat := List.range n.keys.length

/-- The moving grandchild on the neighbour, and the place where it will stand. -/
def transferFrames (r : Rotation) (moved : Picture) (counters : Counters) : List Frame :=
  [⟨r.between, ((r.both "").index r.parentId r.slot "").index r.childId r.childSlot "", counters⟩,
    ⟨r.between, (((r.both "").node moved.id false "leftover Child").separator r.childId r.childGap
      "here").slotsBelow moved (allSlots moved), counters⟩]

/-- The keys that will move, the transfer of a grandchild, and the result. -/
def frames (r : Rotation) (start finish : Counters) : List Frame :=
  let size := if r.moved.isSome then "Big" else "Small"
  [⟨r.before, r.both (size ++ " Rotation with " ++ r.side ++ " Sibling"), start⟩,
    ⟨r.before, ((r.both "").index r.parentId r.slot ("rotate " ++ r.direction)).index r.siblingId
      r.siblingSlot ("rotate " ++ r.direction), start⟩] ++
  match r.moved with
  | some moved =>
    r.transferFrames moved finish ++
      [⟨r.after, (r.both "").slotsBelow moved (allSlots moved), finish⟩]
  | none =>
    [⟨r.after, ((r.both "").index r.parentId r.slot "").index r.childId r.childSlot "", finish⟩]

end Rotation

/-- The label that stands for a key that has left its slot. -/
def blankLabel : String := " "

/-- An empty node that marks a place. -/
def placeholder (id : Nat) : Picture := ⟨id, [], []⟩

namespace Seam

/-- The picture of a seam with given pictures of the two children and a given label between. -/
def pictureWith (s : Seam) (left : Picture) (label : String) (right : Picture) : Picture :=
  ⟨s.id, s.keysBefore.map Key.label ++ label :: s.keysAfter.map Key.label,
    s.childrenBefore.map Node.picture ++ left :: right :: s.childrenAfter.map Node.picture⟩

/-- The rotation of `rotateRight?`, whose result is given. -/
def rightRotation (s : Seam) (slot : Nat) (result : Seam) (ledger : Ledger) : Rotation where
  parentId := s.id
  slot := slot
  childId := s.right.id
  childSlot := 0
  childGap := 0
  siblingId := s.left.id
  siblingSlot := s.left.keys.length - 1
  side := "left"
  direction := "right"
  moved := s.left.children.getLast?.map Node.picture
  before := s.picture
  between := s.pictureWith
    ⟨s.left.id, s.left.keys.dropLast.map Key.label ++ [blankLabel],
      s.left.children.map Node.picture⟩
    result.separator.label
    ⟨s.right.id, (s.separator :: s.right.keys).map Key.label,
      placeholder ledger.proposedId :: s.right.children.map Node.picture⟩
  after := result.picture

/-- The rotation of `rotateLeft?`, whose result is given. -/
def leftRotation (s : Seam) (slot : Nat) (result : Seam) (ledger : Ledger) : Rotation where
  parentId := s.id
  slot := slot
  childId := s.left.id
  childSlot := s.left.keys.length
  childGap := s.left.children.length
  siblingId := s.right.id
  siblingSlot := 0
  side := "right"
  direction := "left"
  moved := s.right.children.head?.map Node.picture
  before := s.picture
  between := s.pictureWith
    ⟨s.left.id, (s.left.keys ++ [s.separator]).map Key.label,
      s.left.children.map Node.picture ++ [placeholder ledger.proposedId]⟩
    result.separator.label
    ⟨s.right.id, blankLabel :: s.right.keys.tail.map Key.label,
      s.right.children.map Node.picture⟩
  after := result.picture

end Seam

namespace Node

/-- The announcement of a merge of a child with a neighbour. -/
def mergeNotice (n : Node Key) (childId siblingId : Nat) (side : String) (ledger : Ledger) :
    Frame :=
  ⟨n.picture, (Highlight.none.node childId true ("Merge with " ++ side ++ " Sibling")).node
    siblingId true "", ledger.counters⟩

/-- The frames of one way to repair child `i`. -/
def planFrames (n : Node Key) (i : Nat) (ledger : Ledger) : Repair → List Frame
  | .keep => []
  | .mergeLeft => (n.seam? (i - 1)).elim [] fun s =>
      n.mergeNotice s.right.id s.left.id "left" ledger :: s.mergeFrames (i - 1) ledger
  | .mergeRight => (n.seam? i).elim [] fun s =>
      n.mergeNotice s.left.id s.right.id "right" ledger :: s.mergeFrames i ledger
  | .rotateRight => (n.seam? (i - 1)).elim [] fun s => s.rotateRight?.elim [] fun result =>
      (s.rightRotation (i - 1) result ledger).frames ledger.counters
        (ledger.rotation !s.left.isLeaf).counters
  | .rotateLeft => (n.seam? i).elim [] fun s => s.rotateLeft?.elim [] fun result =>
      (s.leftRotation i result ledger).frames ledger.counters
        (ledger.rotation !s.right.isLeaf).counters

/-- The frames of repairing child `i`: the underflow and what is done about it. -/
def repairFrames (n : Node Key) (minimum i : Nat) (ledger : Ledger) : List Frame :=
  match n.repairFor minimum i, n.children[i]? with
  | .ok .keep, _ => []
  | .ok plan, some child =>
    ⟨n.picture, Highlight.none.node child.id true "Underflow", ledger.counters⟩ ::
      n.planFrames i ledger plan
  | _, _ => []

/-! ## The whole removal -/

mutual

/-- The frames of taking out the largest key below a node. -/
def removeMaxFrames (minimum : Nat) (ledger : Ledger) : Node Key → List Frame
  | ⟨id, keys, children⟩ =>
    let n : Node Key := ⟨id, keys, children⟩
    let last := children.length - 1
    if children.isEmpty then
      (n.removeLast ledger).toOption.toList.map fun e => ⟨e.node.picture, .none, ledger.counters⟩
    else
      (removeMaxFramesAt minimum ledger last children).map (Frame.within n.picture last) ++
        (removeMaxAt minimum ledger last children).toOption.toList.flatMap fun e =>
          (n.withChild last e.node).repairFrames minimum last e.ledger

/-- The frames of taking out the largest key below the node at a position of a list. -/
def removeMaxFramesAt (minimum : Nat) (ledger : Ledger) : Nat → List (Node Key) → List Frame
  | _, [] => []
  | 0, c :: _ => removeMaxFrames minimum ledger c
  | i + 1, _ :: cs => removeMaxFramesAt minimum ledger i cs

end

/-- The frames of removing the key in slot `i` of an inner node. -/
def replaceFrames (n : Node Key) (minimum : Nat) (k : Key) (i : Nat) (ledger : Ledger) :
    List Frame :=
  match n.children[i]?, removeMaxAt minimum ledger i n.children with
  | some child, .ok e =>
    let exchanged : Node Key := ⟨n.id, n.keys.set i e.key, n.children⟩
    n.predecessorFrames child k i ledger.counters ++
      n.exchangeFrames child i ledger.counters ++
      (removeMaxFrames minimum ledger child).map (Frame.within exchanged.picture i) ++
      (n.withPredecessor i e).repairFrames minimum i e.ledger
  | _, _ => []

mutual

/-- The frames of a removal below a node. -/
def removeFrames (minimum : Nat) (k : Key) (ledger : Ledger) : Node Key → List Frame
  | ⟨id, keys, children⟩ =>
    let n : Node Key := ⟨id, keys, children⟩
    let i := n.childIndex k
    if children.isEmpty then n.leafRemoveFrames k ledger
    else match n.slotOf? k with
      | some slot => n.replaceFrames minimum k slot ledger
      | none =>
        n.searchFrames k (2 * i) ledger.counters ++ n.enterFrames i ledger.counters ++
          (removeFramesAt minimum k ledger i children).map (Frame.within n.picture i) ++
          (removeAt minimum k ledger i children).toOption.toList.flatMap fun r =>
            (n.withChild i r.node).repairFrames minimum i r.ledger

/-- The frames of a removal below the node at a position of a list. -/
def removeFramesAt (minimum : Nat) (k : Key) (ledger : Ledger) :
    Nat → List (Node Key) → List Frame
  | _, [] => []
  | 0, c :: _ => removeFrames minimum k ledger c
  | i + 1, _ :: cs => removeFramesAt minimum k ledger i cs

end

/-- The frame of a root that gave way to its only child. -/
def collapseFrames (n : Node Key) (ledger : Ledger) : List Frame :=
  if n.keys.isEmpty && !n.children.isEmpty then
    [⟨n.collapse.picture, Highlight.none.node n.collapse.id true "new root", ledger.counters⟩]
  else []

end Node

end TracedTree
