import TracedTree.Node.Repair

/-!
# Removal below a node

A key in a leaf is taken out. A key in an inner node is replaced by its predecessor, the largest
key of the subtree on its left, which is taken out of its leaf instead. On the way back up every
parent repairs the child that was entered.
-/

namespace TracedTree

/-- What remains of a node after a removal, and whether the key was found. -/
structure Removal where
  found : Bool
  node : Node Key
  ledger : Ledger
deriving DecidableEq

/-- What remains of a node after its largest key was taken out. -/
structure Extraction where
  key : Key
  node : Node Key
  ledger : Ledger
deriving DecidableEq

namespace Node

/-- The first slot that holds a key. -/
def slotOf? (n : Node Key) (k : Key) : Option Nat := n.keys.findIdx? (·.same k)

/-- Take the last key out of a leaf. -/
def removeLast (n : Node Key) (ledger : Ledger) : Except Corruption Extraction :=
  match n.keys.getLast? with
  | none => .error (.emptyLeaf n.id)
  | some k => .ok ⟨k, { n with keys := n.keys.dropLast }, ledger⟩

mutual

/-- Take out the largest key below a node. -/
def removeMax (minimum : Nat) (ledger : Ledger) : Node Key → Except Corruption Extraction
  | ⟨id, keys, children⟩ =>
    let n : Node Key := ⟨id, keys, children⟩
    if children.isEmpty then n.removeLast ledger
    else do
      let last := children.length - 1
      let e ← removeMaxAt minimum ledger last children
      let (m, ledger) ← (n.withChild last e.node).repair minimum last e.ledger
      return ⟨e.key, m, ledger⟩

/-- Take out the largest key below the node at a position of a list. -/
def removeMaxAt (minimum : Nat) (ledger : Ledger) :
    Nat → List (Node Key) → Except Corruption Extraction
  | _, [] => .error .missingChild
  | 0, c :: _ => removeMax minimum ledger c
  | i + 1, _ :: cs => removeMaxAt minimum ledger i cs

end

/-- Take the first occurrence of a key out of a leaf. -/
def removeFromLeaf (n : Node Key) (k : Key) (ledger : Ledger) : Removal :=
  match n.slotOf? k with
  | some i => ⟨true, { n with keys := n.keys.eraseIdx i }, ledger⟩
  | none => ⟨false, n, ledger⟩

/-- The node with its key at a position replaced, and child and key to the left of it with it. -/
def withPredecessor (n : Node Key) (i : Nat) (e : Extraction) : Node Key :=
  ⟨n.id, n.keys.set i e.key, n.children.set i e.node⟩

mutual

/-- Remove one occurrence of a key below a node. -/
def remove (minimum : Nat) (k : Key) (ledger : Ledger) : Node Key → Except Corruption Removal
  | ⟨id, keys, children⟩ =>
    let n : Node Key := ⟨id, keys, children⟩
    if children.isEmpty then .ok (n.removeFromLeaf k ledger)
    else match n.slotOf? k with
      | some i => do
        let e ← removeMaxAt minimum ledger i children
        let (m, ledger) ← (n.withPredecessor i e).repair minimum i e.ledger
        return ⟨true, m, ledger⟩
      | none => do
        let i := n.childIndex k
        let r ← removeAt minimum k ledger i children
        let (m, ledger) ← (n.withChild i r.node).repair minimum i r.ledger
        return ⟨r.found, m, ledger⟩

/-- Remove one occurrence of a key below the node at a position of a list. -/
def removeAt (minimum : Nat) (k : Key) (ledger : Ledger) :
    Nat → List (Node Key) → Except Corruption Removal
  | _, [] => .error .missingChild
  | 0, c :: _ => remove minimum k ledger c
  | i + 1, _ :: cs => removeAt minimum k ledger i cs

end

/-- The root after a removal: a root without keys gives way to its only child. -/
def collapse (n : Node Key) : Node Key :=
  match n.keys, n.children with
  | [], child :: _ => child
  | _, _ => n

end Node

end TracedTree
