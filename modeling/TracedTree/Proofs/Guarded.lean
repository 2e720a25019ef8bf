import TracedTree.Proofs.Run

/-!
# Guarded operations

The operations once more, as programs that walk the whole tree along paths of child positions,
change it in place step by step, and record frames of the whole tree as they go. Every access is
guarded: an index into keys or children, a path, and a subtraction of lengths or positions raise a
fault where they are out of range, in the recording parts as well, which run only while the tree is
recording. So do a walk below the leaves, a child that is to be repaired and lacks more than one
key, and the corruptions that stop an operation.

What is shown otherwise than it is, a node that is overfull, proposed or about to move, is drawn by
identity: the first node of the picture that has the identity is replaced, changed or looked up.

## Main definitions

* `Fault`: what can go wrong.
* `Guarded.Run`: programs that change a tree and can fail.
* `Guarded.operate`: an operation as such a program.
-/

namespace TracedTree

/-- What can go wrong on the way of an operation. -/
inductive Fault where
  /-- An index, or a step of a path, is out of range. -/
  | outOfRange
  /-- A subtraction goes below zero. -/
  | belowZero
  /-- A walk goes on where the tree should have ended. -/
  | tooDeep
  /-- A child that is to be repaired lacks more than one key. -/
  | tooShort (id : Nat)
  /-- The tree is found corrupted. -/
  | corrupted (c : Corruption)
deriving DecidableEq

namespace Guarded

/-! ## Lists -/

section Lists

variable {α : Type}

/-- The element at a position. -/
def entry (xs : List α) (i : Nat) : Except Fault α := xs[i]?.elim (.error .outOfRange) .ok

/-- The list with another element at a position. -/
def setAt (xs : List α) (i : Nat) (x : α) : Except Fault (List α) :=
  if i < xs.length then .ok (xs.set i x) else .error .outOfRange

/-- The list with one more element, before a position. -/
def insertAt (xs : List α) (i : Nat) (x : α) : Except Fault (List α) :=
  if i ≤ xs.length then .ok (xs.take i ++ x :: xs.drop i) else .error .outOfRange

/-- The list without the element at a position. -/
def removeAt (xs : List α) (i : Nat) : Except Fault (List α) :=
  if i < xs.length then .ok (xs.eraseIdx i) else .error .outOfRange

/-- The list cut in two before a position. -/
def splitOff (xs : List α) (i : Nat) : Except Fault (List α × List α) :=
  if i ≤ xs.length then .ok (xs.take i, xs.drop i) else .error .outOfRange

end Lists

/-- A difference of numbers. -/
def less (m n : Nat) : Except Fault Nat := if n ≤ m then .ok (m - n) else .error .belowZero

/-! ## Paths -/

section Paths

variable {α : Type}

/-- The node at the end of a path. A path lists positions among children, the deepest first. -/
def lookUp : List Nat → Node α → Except Fault (Node α)
  | [], n => .ok n
  | i :: up, n => do
    let parent ← lookUp up n
    entry parent.children i

/-- The tree with the node at the end of a path changed. -/
def alter : List Nat → (Node α → Except Fault (Node α)) → Node α → Except Fault (Node α)
  | [], f, n => f n
  | i :: up, f, n =>
    alter up (fun parent => do
      let child ← f (← entry parent.children i)
      return { parent with children := ← setAt parent.children i child }) n

end Paths

/-! ## Programs -/

/-- Programs that change a tree and can fail. -/
abbrev Run := StateT Tree (Except Fault)

/-- The node of the tree at the end of a path. -/
def nodeAt (path : List Nat) : Run (Node Key) := do
  let t ← get
  lookUp path t.root

/-- Change the node at the end of a path. -/
def alterAt (path : List Nat) (f : Node Key → Except Fault (Node Key)) : Run Unit := do
  let t ← get
  let root ← alter path f t.root
  set { t with root }

/-- Change the ledger. -/
def account (f : Ledger → Ledger) : Run Unit := modify fun t => { t with ledger := f t.ledger }

/-- Append a frame with a given picture, if the tree is recording. -/
def record (p : Picture) (h : Highlight) : Run Unit :=
  modify fun t => { t with recording := t.recording.map (· ++ [⟨p, h, t.counters⟩]) }

/-- Append a frame of the tree as it is. -/
def recordLive (h : Highlight) : Run Unit := do
  let t ← get
  record t.picture h

/-- The tree as it is shown with another picture in the place of the node with an identity. -/
def shownWith (id : Nat) (p : Picture) : Run Picture := do
  let t ← get
  return t.picture.modify id fun _ => p

/-- Append a frame of the tree as it is, with more emphasis below some slots of a node. -/
def recordSubtree (h : Highlight) (id : Nat) (slots : List Nat) : Run Unit := do
  let t ← get
  record t.picture (h.subtree id slots t.picture)

/-- Run a program only while the tree is recording. -/
def whenRecording (x : Run Unit) : Run Unit := do
  let t ← get
  if t.isRecording then x

/-! ## Searching -/

/-- The child that a key is sent into: right of the last key that stands before it, looked for from
a slot downward. -/
def childFrom (n : Node Key) (k : Key) : Nat → Except Fault Nat
  | 0 => .ok 0
  | slot + 1 => do
    let key ← entry n.keys slot
    if key.lt k then return slot + 1 else childFrom n k slot

/-- The child that a key is sent into. -/
def childFor (n : Node Key) (k : Key) : Except Fault Nat := childFrom n k n.keys.length

/-- The mark of a gap that is probed for the place of a key. -/
def gapProbe (n : Node Key) (k : Key) (gap : Nat) : Except Fault String := do
  let ends ← match gap with
    | 0 => pure true
    | slot + 1 => do
      let key ← entry n.keys slot
      pure !(k.lt key)
  return k.label ++ " " ++ searchMark ends

/-- Probe the gaps of a node from the right end down to a given one. -/
def recordProbes (path : List Nat) (k : Key) (lowest : Nat) : Run Unit := do
  let n ← nodeAt path
  (List.range' lowest (n.keys.length + 1 - lowest)).reverse.forM fun gap => do
    let message ← gapProbe n k gap
    recordLive ((Highlight.none.node n.id false "finding position").separator n.id gap message)

/-! ## Insertion -/

/-- Walk down to the leaf that a key belongs to and give its path. -/
def descend (k : Key) : Nat → List Nat → Run (List Nat)
  | 0, _ => throw .tooDeep
  | levels + 1, path => do
    let n ← nodeAt path
    if n.isLeaf then return path
    let i ← childFor n k
    whenRecording do
      recordProbes path k i
      let child ← entry n.children i
      recordLive ((Highlight.none.node child.id true "").edge n.id child.id true)
    descend k levels (i :: path)

/-- Put a key into a leaf with room for it. -/
def insertIntoLeaf (path : List Nat) (k : Key) : Run Unit := do
  let n ← nodeAt path
  let slot := n.slotFor k
  whenRecording do
    if !n.keys.isEmpty then recordProbes path k slot
  alterAt path fun n => do return { n with keys := ← insertAt n.keys slot k }
  whenRecording (recordLive (Highlight.none.index n.id slot ""))

/-- A node with one more key, and with one more child right of the key unless it is a leaf. -/
def enlarge (n : Node Key) (slot : Nat) (k : Key) (right : Option (Node Key)) :
    Except Fault (Node Key) := do
  let keys ← insertAt n.keys slot k
  let children ← match right with
    | none => pure n.children
    | some right => insertAt n.children (slot + 1) right
  return ⟨n.id, keys, children⟩

/-- A node divided around its middle key: the left half, the key, and the right half. -/
def divide (n : Node Key) (rightId : Nat) : Except Fault (Node Key × Key × Node Key) := do
  let (keys, others) ← splitOff n.keys (n.middle + 1)
  let median ← entry keys n.middle
  let keys ← removeAt keys n.middle
  let (children, more) ←
    if n.children.isEmpty then pure ([], []) else splitOff n.children (n.middle + 1)
  return (⟨n.id, keys, children⟩, median, ⟨rightId, others, more⟩)

/-- Show a node with one key too many in the place of the node as it is. -/
def recordOverflow (path : List Nat) (slot : Nat) (k : Key) (right : Option (Node Key)) :
    Run Unit := do
  right.elim (recordProbes path k slot) fun _ => pure ()
  let filled ← enlarge (← nodeAt path) slot k right
  let median ← entry filled.keys filled.middle
  let shown ← shownWith filled.id filled.picture
  let arrived := Highlight.none.index filled.id slot ""
  let overflow := Highlight.none.node filled.id true "Overflow"
  record shown (if right.isSome then arrived.subtree filled.id [slot] shown else arrived)
  record shown overflow
  record shown (overflow.index filled.id filled.middle ("Splitting at " ++ median.label))

/-- Divide a full node that takes a key, and perhaps the right half of the child at a position. The
left half stays in its place. -/
def splitNode (path : List Nat) (k : Key) (carried : Option (Nat × Node Key)) :
    Run (Key × Node Key) := do
  let n ← nodeAt path
  let slot := carried.elim (n.slotFor k) Prod.fst
  let right := carried.map Prod.snd
  whenRecording (recordOverflow path slot k right)
  let t ← get
  let (left, median, right) ← divide (← enlarge n slot k right) t.ledger.freshId
  account Ledger.split
  alterAt path fun _ => .ok left
  return (median, right)

/-- Show both halves of a node below a proposed one that holds the key between them. -/
def recordPromotion (path : List Nat) (median : Key) (right : Node Key) : Run Unit := do
  let left ← nodeAt path
  let t ← get
  let id := t.ledger.proposedId
  let lifted := proposal id left median right
  match path with
  | [] =>
    record lifted (.proposed id left right)
    record lifted ((Highlight.none.node id false "new Root").index id 0 "")
  | i :: up =>
    let shown ← shownWith left.id lifted
    record shown (.proposed id left right)
    record shown ((Highlight.none.node id false "insert into Parent").subtree id [0] shown)
    let parent ← nodeAt up
    record shown ((((Highlight.none.subtree id [0] shown).node parent.id true "").separator
      parent.id i "").edge parent.id id true)

/-- Put a key and the right half of a divided child into a node with room for them. -/
def insertSplit (path : List Nat) (i : Nat) (median : Key) (right : Node Key) : Run Unit := do
  alterAt path fun n => enlarge n i median right
  whenRecording do
    let n ← nodeAt path
    recordSubtree .none n.id [i]

/-- Put a new root above the halves of the old one. -/
def growRoot (median : Key) (right : Node Key) : Run Unit :=
  modify fun t => { t with
    root := ⟨t.ledger.freshId, [median], [t.root, right]⟩
    ledger := t.ledger.issue }

/-- Take the key between two halves and the right half up to where there is room for them. -/
def lift : List Nat → Key → Node Key → Run Unit
  | [], median, right => do
    whenRecording (recordPromotion [] median right)
    growRoot median right
  | i :: up, median, right => do
    whenRecording (recordPromotion (i :: up) median right)
    let parent ← nodeAt up
    let t ← get
    if parent.keys.length = t.maxKeys then
      let (median, right) ← splitNode up median (some (i, right))
      lift up median right
    else insertSplit up i median right

/-- Put a key into the leaf at the end of a path. -/
def place (path : List Nat) (k : Key) : Run Unit := do
  let leaf ← nodeAt path
  let t ← get
  if leaf.keys.length = t.maxKeys then
    let (median, right) ← splitNode path k none
    lift path median right
  else insertIntoLeaf path k

/-- Insert a key. -/
def add (k : Key) : Run Unit := do
  let t ← get
  whenRecording (recordLive (Highlight.none.node t.root.id false ("Inserting " ++ k.label)))
  let path ← descend k (t.height + 1) []
  place path k

/-! ## Repairs -/

/-- Merge two neighbouring children with the key between them. -/
def mergeChildren (path : List Nat) (i : Nat) : Run Unit := do
  let parent ← nodeAt path
  let left ← entry parent.children i
  let right ← entry parent.children (i + 1)
  whenRecording (recordLive (((Highlight.none.index parent.id i "middle Key").node left.id true
    "").node right.id true ""))
  let separator ← entry parent.keys i
  alterAt path fun n => do
    return ⟨n.id, ← removeAt n.keys i, ← removeAt n.children (i + 1)⟩
  alterAt (i :: path) fun n => .ok
    ⟨n.id, n.keys ++ separator :: right.keys, n.children ++ right.children⟩
  account Ledger.merge
  whenRecording (recordLive ((Highlight.none.node left.id true "Merged node").index left.id
    left.keys.length ""))

/-- The emphasis on a child and its neighbour. -/
def both (childId siblingId : Nat) (message : String) : Highlight :=
  (Highlight.none.node childId true message).node siblingId true ""

/-- Announce a rotation and the keys that will move. -/
def recordRotation (parent child sibling : Node Key) (slot siblingSlot : Nat)
    (side direction : String) : Run Unit := do
  let size := if sibling.isLeaf then "Small" else "Big"
  recordLive (both child.id sibling.id (size ++ " Rotation with " ++ side ++ " Sibling"))
  recordLive (((both child.id sibling.id "").index parent.id slot ("rotate " ++ direction)).index
    sibling.id siblingSlot ("rotate " ++ direction))

/-- A picture in which a label was blanked. -/
def blanked (slot : Nat) (n : Picture) : Picture := { n with keys := n.keys.set slot blankLabel }

/-- A picture with an empty child at a position, or at the end. -/
def withPlaceholder (id gap : Nat) (n : Picture) : Picture :=
  { n with children := n.children.insertIdx (min gap n.children.length) (placeholder id) }

/-- Show a grandchild that is about to move from a neighbour, which has given the key in a slot, to
a gap of a child. -/
def recordTransfer (path : List Nat) (slot child childSlot gap sibling siblingSlot : Nat)
    (moved : Node Key) : Run Unit := do
  let parent ← nodeAt path
  let n ← entry parent.children child
  let m ← entry parent.children sibling
  let t ← get
  let shown := (t.picture.modify m.id (blanked siblingSlot)).modify n.id
    (withPlaceholder t.ledger.proposedId gap)
  record shown (((both n.id m.id "").index parent.id slot "").index n.id childSlot "")
  record shown ((((both n.id m.id "").node moved.id false "leftover Child").separator n.id gap
    "here").subtree moved.id (List.range moved.keys.length) shown)

/-- Show the result of a rotation: the grandchild that has moved, or else the keys. -/
def recordRotated (parent child sibling : Node Key) (slot childSlot : Nat)
    (moved : Option (Node Key)) : Run Unit :=
  match moved with
  | some moved => recordSubtree (both child.id sibling.id "") moved.id
      (List.range moved.keys.length)
  | none => recordLive (((both child.id sibling.id "").index parent.id slot "").index child.id
      childSlot "")

/-- Move the last child of a left neighbour to a child, if it has any, and count the rotation. -/
def passRight (path : List Nat) (i before last : Nat) (sibling : Node Key) :
    Run (Option (Node Key)) :=
  if sibling.isLeaf then do
    account Ledger.smallRotation
    return none
  else do
    account Ledger.bigRotation
    let moved ← entry sibling.children (last + 1)
    whenRecording (recordTransfer path before i 0 0 before last moved)
    alterAt (before :: path) fun n => .ok { n with children := n.children.dropLast }
    alterAt (i :: path) fun n => .ok { n with children := moved :: n.children }
    return some moved

/-- Give a child the last key of its left neighbour through the parent. -/
def rotateRight (path : List Nat) (i : Nat) : Run Unit := do
  let parent ← nodeAt path
  let child ← entry parent.children i
  let before ← less i 1
  let sibling ← entry parent.children before
  let last ← less sibling.keys.length 1
  whenRecording (recordRotation parent child sibling before last "left" "right")
  let raised ← entry sibling.keys last
  let separator ← entry parent.keys before
  alterAt path fun n => do return { n with keys := ← setAt n.keys before raised }
  alterAt (i :: path) fun n => .ok { n with keys := separator :: n.keys }
  let moved ← passRight path i before last sibling
  alterAt (before :: path) fun n => .ok { n with keys := n.keys.dropLast }
  whenRecording (recordRotated parent child sibling before 0 moved)

/-- Move the first child of a right neighbour to a child, if it has any, and count the rotation. -/
def passLeft (path : List Nat) (i last : Nat) (child sibling : Node Key) :
    Run (Option (Node Key)) :=
  if sibling.isLeaf then do
    account Ledger.smallRotation
    return none
  else do
    account Ledger.bigRotation
    let moved ← entry sibling.children 0
    whenRecording (recordTransfer path i i last child.children.length (i + 1) 0 moved)
    alterAt ((i + 1) :: path) fun n => do return { n with children := ← removeAt n.children 0 }
    alterAt (i :: path) fun n => .ok { n with children := n.children ++ [moved] }
    return some moved

/-- Give a child the first key of its right neighbour through the parent. -/
def rotateLeft (path : List Nat) (i : Nat) : Run Unit := do
  let parent ← nodeAt path
  let child ← entry parent.children i
  let sibling ← entry parent.children (i + 1)
  whenRecording (recordRotation parent child sibling i 0 "right" "left")
  let raised ← entry sibling.keys 0
  let separator ← entry parent.keys i
  alterAt path fun n => do return { n with keys := ← setAt n.keys i raised }
  alterAt (i :: path) fun n => .ok { n with keys := n.keys ++ [separator] }
  let last ← less (child.keys.length + 1) 1
  let moved ← passLeft path i last child sibling
  alterAt ((i + 1) :: path) fun n => do return { n with keys := ← removeAt n.keys 0 }
  whenRecording (recordRotated parent child sibling i last moved)

/-- Announce a merge of a child with a neighbour. -/
def recordMerge (child sibling : Node Key) (side : String) : Run Unit :=
  recordLive (both child.id sibling.id ("Merge with " ++ side ++ " Sibling"))

/-- Repair a child with one of its neighbours: merge it with one that holds exactly the minimum, or
else take a key from one that holds more, the left one first. -/
def repairWith (path : List Nat) (i : Nat) (child : Node Key) (left right : Option (Node Key))
    (minimum : Nat) : Run Unit :=
  match left.filter (·.keys.length = minimum), right.filter (·.keys.length = minimum) with
  | some sibling, _ => do
    whenRecording (recordMerge child sibling "left")
    mergeChildren path (← less i 1)
  | none, some sibling => do
    whenRecording (recordMerge child sibling "right")
    mergeChildren path i
  | none, none =>
    if left.any (minimum < ·.keys.length) then rotateRight path i
    else if right.any (minimum < ·.keys.length) then rotateLeft path i
    else throw (.corrupted (.noUsableSibling child.id))

/-- Repair a child that holds fewer keys than the minimum, but at most one fewer. -/
def rebalance (path : List Nat) (i : Nat) : Run Unit := do
  let t ← get
  let parent ← nodeAt path
  let child ← entry parent.children i
  if child.keys.length + 1 < t.minKeys then throw (.tooShort child.id)
  else if t.minKeys ≤ child.keys.length then return
  else
    whenRecording (recordLive (Highlight.none.node child.id true "Underflow"))
    repairWith path i child (parent.leftSibling? i) parent.children[i + 1]? t.minKeys

/-! ## Removal -/

/-- The searched key between the keys on both sides of a gap. -/
def gapRange (n : Node Key) (gap : Nat) (k : Key) : Except Fault String := do
  let lower ← match gap with
    | 0 => pure ""
    | slot + 1 => do
      let key ← entry n.keys slot
      pure (key.label ++ " < ")
  return lower ++ k.label ++ n.keys[gap]?.elim "" (" < " ++ ·.label)

/-- Probe the slots and gaps of a node from the right end down to the place where the search
ends. -/
def recordSearch (path : List Nat) (k : Key) (last : Nat) : Run Unit := do
  let n ← nodeAt path
  (List.range' last (2 * n.keys.length + 1 - last)).reverse.forM fun place => do
    let h := Highlight.none.node n.id false "finding Key"
    let mark := searchMark (place == last)
    if place % 2 = 1 then
      let slot ← less place 1
      recordLive (h.index n.id (slot / 2) (k.label ++ " " ++ mark))
    else
      let range ← gapRange n (place / 2) k
      recordLive (h.separator n.id (place / 2) (range ++ " " ++ mark))

/-- Remove a key from a leaf, if it is there. -/
def removeFromLeaf (path : List Nat) (k : Key) : Run Bool := do
  let n ← nodeAt path
  let found := n.slotOf? k
  let last := found.getD 0
  whenRecording <|
    (List.range' last (n.keys.length - last)).reverse.forM fun slot =>
      recordLive ((Highlight.none.node n.id false "finding Key").index n.id slot
        (k.label ++ " " ++ searchMark (found == some slot)))
  match found with
  | none =>
    whenRecording
      (recordLive (Highlight.none.node n.id true ("Key " ++ k.label ++ " not found")))
    return false
  | some slot =>
    whenRecording (recordLive (Highlight.none.index n.id slot ("removing " ++ k.label)))
    alterAt path fun n => do return { n with keys := ← removeAt n.keys slot }
    whenRecording (recordLive .none)
    return true

/-- Walk down the last children to the largest key below a node, and give the path of its leaf. -/
def extractMax (base : Highlight) : Nat → List Nat → Run (Key × List Nat)
  | 0, _ => throw .tooDeep
  | levels + 1, path => do
    let n ← nodeAt path
    if n.isLeaf then
      match n.keys.getLast? with
      | none => throw (.corrupted (.emptyLeaf n.id))
      | some largest =>
        whenRecording do
          let last ← less n.keys.length 1
          recordLive (base.index n.id last "Predecessor")
        return (largest, path)
    else
      let last ← less n.children.length 1
      let child ← entry n.children last
      whenRecording do
        recordLive ((base.node child.id true "").edge n.id child.id true)
        recordLive (base.node child.id false "Find Predecessor")
      extractMax base levels (last :: path)

/-- Drop the largest key below a node and repair the nodes on the way back up. -/
def removeMax : Nat → List Nat → Run Unit
  | 0, _ => throw .tooDeep
  | levels + 1, path => do
    let n ← nodeAt path
    if n.isLeaf then
      alterAt path fun n => .ok { n with keys := n.keys.dropLast }
      whenRecording (recordLive .none)
    else
      let last ← less n.children.length 1
      removeMax levels (last :: path)
      rebalance path last

/-- Replace the key in a slot of an inner node by its predecessor, which is removed from its
leaf. -/
def removeInternal (levels : Nat) (path : List Nat) (k : Key) (slot : Nat) : Run Unit := do
  let n ← nodeAt path
  let base := Highlight.none.index n.id slot ""
  whenRecording do
    let child ← entry n.children slot
    recordSearch path k (2 * slot + 1)
    recordLive ((Highlight.none.node n.id false "").index n.id slot "Replace Key with Predecessor")
    recordLive ((base.edge n.id child.id true).node child.id true "")
    recordLive (base.node child.id false "Find Predecessor")
  let (largest, leafPath) ← extractMax base levels (slot :: path)
  whenRecording do
    let leaf ← nodeAt leafPath
    recordLive ((((Highlight.none.index n.id slot ("Replace with " ++ largest.label)).node n.id true
      "").index leaf.id (leaf.keys.length - 1) ("Remove " ++ largest.label)).node leaf.id true "")
  alterAt path fun n => do return { n with keys := ← setAt n.keys slot largest }
  removeMax levels (slot :: path)
  rebalance path slot

/-- Remove one occurrence of a key below a node. -/
def removeFrom (k : Key) : Nat → List Nat → Run Bool
  | 0, _ => throw .tooDeep
  | levels + 1, path => do
    let n ← nodeAt path
    if n.isLeaf then removeFromLeaf path k
    else match n.slotOf? k with
      | some slot => do
        removeInternal levels path k slot
        return true
      | none => do
        let i ← childFor n k
        whenRecording do
          let child ← entry n.children i
          recordSearch path k (2 * i)
          recordLive ((Highlight.none.edge n.id child.id true).node child.id true "")
        let removed ← removeFrom k levels (i :: path)
        rebalance path i
        return removed

/-- Let a root without keys give way to its only child. -/
def collapseRoot : Run Unit := do
  let t ← get
  if t.root.keys.isEmpty && !t.root.children.isEmpty then
    let child ← entry t.root.children 0
    modify fun t => { t with root := child }
    whenRecording (recordLive (Highlight.none.node child.id true "new root"))

/-- Remove one occurrence of a key and tell whether there was one. -/
def remove (k : Key) : Run Bool := do
  let t ← get
  whenRecording (recordLive (Highlight.none.node t.root.id false ("Removing " ++ k.label)))
  let removed ← removeFrom k (t.height + 1) []
  collapseRoot
  return removed

/-- An operation. A key of the wrong kind is refused or absent. -/
def operate : Operation → Run Tree.Answer
  | .add k => do
    let t ← get
    if k.kind ≠ t.kind then return .refused t.kind k.kind
    add k
    return .added
  | .remove k => do
    let t ← get
    if k.kind ≠ t.kind then return .removed false
    return .removed (← remove k)

end Guarded

end TracedTree
