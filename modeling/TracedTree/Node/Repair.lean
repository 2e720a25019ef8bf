import TracedTree.Node.Insert

/-!
# Repairs

A node that has lost a key may hold fewer than the minimum. Its parent repairs it with a
neighbour: a neighbour that holds exactly the minimum is merged with it, the left one first;
otherwise a richer neighbour gives one key through the parent, again the left one first. All
repairs act on a `Seam`: two neighbouring children with the key between them, and what stands in
the parent on either side.
-/

namespace TracedTree

/-- A node opened between two neighbouring children. -/
structure Seam where
  id : Nat
  keysBefore : List Key
  separator : Key
  keysAfter : List Key
  childrenBefore : List (Node Key)
  left : Node Key
  right : Node Key
  childrenAfter : List (Node Key)
deriving DecidableEq

/-- Open a node at the key at a position. -/
def Node.seam? (n : Node Key) (i : Nat) : Option Seam :=
  match n.keys.drop i, n.children.drop i with
  | separator :: keysAfter, left :: right :: childrenAfter =>
    some ⟨n.id, n.keys.take i, separator, keysAfter, n.children.take i, left, right, childrenAfter⟩
  | _, _ => none

namespace Seam

/-- The node with the seam closed again. -/
def close (s : Seam) : Node Key :=
  ⟨s.id, s.keysBefore ++ s.separator :: s.keysAfter,
    s.childrenBefore ++ s.left :: s.right :: s.childrenAfter⟩

/-- The two children joined into the left one, with the key between them. -/
def joined (s : Seam) : Node Key :=
  ⟨s.left.id, s.left.keys ++ s.separator :: s.right.keys, s.left.children ++ s.right.children⟩

/-- The node with the two children joined. -/
def merge (s : Seam) : Node Key :=
  ⟨s.id, s.keysBefore ++ s.keysAfter, s.childrenBefore ++ s.joined :: s.childrenAfter⟩

/-- The last key of the left child goes up and the separator down to the right child, which also
takes over the last grandchild on the left. -/
def rotateRight? (s : Seam) : Option Seam :=
  s.left.keys.getLast?.map fun raised =>
    { s with
      separator := raised
      left := ⟨s.left.id, s.left.keys.dropLast, s.left.children.dropLast⟩
      right := ⟨s.right.id, s.separator :: s.right.keys,
        s.left.children.getLast?.toList ++ s.right.children⟩ }

/-- The first key of the right child goes up and the separator down to the left child, which
also takes over the first grandchild on the right. -/
def rotateLeft? (s : Seam) : Option Seam :=
  s.right.keys.head?.map fun raised =>
    { s with
      separator := raised
      left := ⟨s.left.id, s.left.keys ++ [s.separator],
        s.left.children ++ s.right.children.head?.toList⟩
      right := ⟨s.right.id, s.right.keys.tail, s.right.children.tail⟩ }

end Seam

/-- Count a rotation; it is a big one when a grandchild moved as well. -/
def Ledger.rotation (l : Ledger) (big : Bool) : Ledger :=
  if big then l.bigRotation else l.smallRotation

/-- The ways to repair a child. -/
inductive Repair where
  | keep
  | mergeLeft
  | mergeRight
  | rotateRight
  | rotateLeft
deriving DecidableEq, Repr

namespace Node

/-- The neighbour on the left of a child. -/
def leftSibling? {α : Type} (n : Node α) : Nat → Option (Node α)
  | 0 => none
  | i + 1 => n.children[i]?

/-- How child `i` is to be repaired. -/
def repairFor (n : Node Key) (minimum i : Nat) : Except Corruption Repair :=
  match n.children[i]? with
  | none => .error .missingChild
  | some child =>
    let left := (n.leftSibling? i).map (·.keys.length)
    let right := n.children[i + 1]?.map (·.keys.length)
    if minimum ≤ child.keys.length then .ok .keep
    else if left = some minimum then .ok .mergeLeft
    else if right = some minimum then .ok .mergeRight
    else if left.any (minimum < ·) then .ok .rotateRight
    else if right.any (minimum < ·) then .ok .rotateLeft
    else .error (.noUsableSibling child.id)

/-- The node opened at a position where two children and a key must be. -/
def seam (n : Node Key) (i : Nat) : Except Corruption Seam :=
  (n.seam? i).elim (.error .missingChild) .ok

/-- Repair child `i` if it holds fewer keys than the minimum. -/
def repair (n : Node Key) (minimum i : Nat) (ledger : Ledger) :
    Except Corruption (Node Key × Ledger) := do
  match ← n.repairFor minimum i with
  | .keep => return (n, ledger)
  | .mergeLeft =>
    let s ← n.seam (i - 1)
    return (s.merge, ledger.merge)
  | .mergeRight =>
    let s ← n.seam i
    return (s.merge, ledger.merge)
  | .rotateRight =>
    let s ← n.seam (i - 1)
    let t ← s.rotateRight?.elim (.error .missingChild) .ok
    return (t.close, ledger.rotation !s.left.isLeaf)
  | .rotateLeft =>
    let s ← n.seam i
    let t ← s.rotateLeft?.elim (.error .missingChild) .ok
    return (t.close, ledger.rotation !s.right.isLeaf)

end Node

end TracedTree
