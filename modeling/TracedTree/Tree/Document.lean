import TracedTree.Tree.Valid

/-!
# Documents of trees

A document carries what is needed to restore a tree: the capacity, the kind of the keys, and a
picture of the nodes. Restoring reads the labels as keys of the kind and rejects whatever could
not have been built by the operations; the restored tree has its largest identity as the last
one handed out, counters at zero, and records nothing.
-/

namespace TracedTree

/-- A tree as it is stored. -/
structure Document where
  maxKeys : Nat
  kind : Kind
  picture : Picture
deriving DecidableEq

/-- The document of a tree. -/
def Tree.document (t : Tree) : Document := ⟨t.maxKeys, t.kind, t.picture⟩

namespace Document

/-- Read a label as a key. -/
def readKey (kind : Kind) (raw : String) : Except ImportFault Key :=
  (Key.ofText? raw kind).elim (.error (.unreadableKey raw kind)) .ok

/-- Read the nodes of a picture. The capacity and the number of children of a node are checked
before its keys, and the node before its children. -/
def readNode (maxKeys : Nat) (kind : Kind) : Picture → Except ImportFault (Node Key) :=
  Node.fold fun id labels children => do
    if maxKeys < labels.length then throw (.overfullNode id labels.length maxKeys)
    if !children.isEmpty && children.length != labels.length + 1 then
      throw (.childMismatch id labels.length children.length)
    return ⟨id, ← labels.mapM (readKey kind), ← children.mapM fun child => child⟩

/-- Restore a tree. -/
def tree (d : Document) : Except ImportFault Tree :=
  if h : 2 ≤ d.maxKeys then do
    let root ← readNode d.maxKeys d.kind d.picture
    let t : Tree := ⟨d.maxKeys, d.kind, root, ⟨root.maxId, {}⟩, none, h⟩
    match t.check with
    | .ok () => return t
    | .error flaw => throw (.flawed flaw)
  else .error (.capacityTooSmall d.maxKeys)

end Document

end TracedTree
