import TracedTree.Key
import TracedTree.Ledger
import TracedTree.Node

/-!
# Insertion below a node

A key goes into the leaf that the separators lead to, behind every key that is not greater. A
node that comes to hold more keys than its capacity is divided around its middle key; the middle
key and the right half go up to the parent, where the same may happen again. What comes out of
`Node.insert` is therefore either one node or two halves with a key between them, together with
the ledger after all divisions.

A node whose separators lead to a child that it does not have is reported as corrupted.
-/

namespace TracedTree

/-- How a tree can fail to be a search tree in a way that stops an operation. -/
inductive Corruption where
  /-- A node lacks a child, or a key between two children. -/
  | missingChild
  /-- The leaf that should hold a predecessor holds no key. -/
  | emptyLeaf (id : Nat)
  /-- A node holds too few keys and neither neighbour can help. -/
  | noUsableSibling (id : Nat)
deriving DecidableEq, Repr

/-- What a node becomes when a key is inserted below it. -/
inductive Growth where
  | whole (node : Node Key)
  | halves (left : Node Key) (median : Key) (right : Node Key)
deriving DecidableEq

namespace Node

/-- The number of leading keys that stand before a key: the child whose range holds the key. A
key that equals a separator belongs to the left of it. -/
def childIndex (n : Node Key) (k : Key) : Nat := (n.keys.takeWhile (·.lt k)).length

/-- The number of leading keys that do not stand behind a key: its slot in a leaf. -/
def slotFor (n : Node Key) (k : Key) : Nat := (n.keys.takeWhile (·.le k)).length

/-- The node with a key put at its slot. -/
def withKey (n : Node Key) (k : Key) : Node Key :=
  { n with keys := n.keys.takeWhile (·.le k) ++ k :: n.keys.dropWhile (·.le k) }

/-- The node with another child at a position. -/
def withChild {α : Type} (n : Node α) (i : Nat) (child : Node α) : Node α :=
  { n with children := n.children.set i child }

/-- The node with the halves of child `i` and the key between them in the place of the child. -/
def withHalves (n : Node Key) (i : Nat) (left : Node Key) (median : Key) (right : Node Key) :
    Node Key :=
  ⟨n.id, n.keys.take i ++ median :: n.keys.drop i,
    n.children.take i ++ left :: right :: n.children.drop (i + 1)⟩

/-- The position of the key around which the node is divided. -/
def middle {α : Type} (n : Node α) : Nat := n.keys.length / 2

/-- The node divided around its middle key; the left half keeps the identity. -/
def divide (n : Node Key) (rightId : Nat) : Growth :=
  match n.keys.drop n.middle with
  | [] => .whole n
  | median :: rest =>
    .halves ⟨n.id, n.keys.take n.middle, n.children.take (n.middle + 1)⟩ median
      ⟨rightId, rest, n.children.drop (n.middle + 1)⟩

/-- The node as it is, or divided if it holds more keys than the capacity. -/
def settle (n : Node Key) (capacity : Nat) (ledger : Ledger) : Growth × Ledger :=
  if n.keys.length ≤ capacity then (.whole n, ledger) else (n.divide ledger.freshId, ledger.split)

/-- The parent after something was inserted below child `i`. -/
def receive (n : Node Key) (capacity i : Nat) : Growth × Ledger → Growth × Ledger
  | (.whole child, ledger) => (.whole (n.withChild i child), ledger)
  | (.halves left median right, ledger) => (n.withHalves i left median right).settle capacity ledger

mutual

/-- Insert a key below a node. -/
def insert (capacity : Nat) (k : Key) (ledger : Ledger) :
    Node Key → Except Corruption (Growth × Ledger)
  | ⟨id, keys, children⟩ =>
    let n : Node Key := ⟨id, keys, children⟩
    if children.isEmpty then .ok ((n.withKey k).settle capacity ledger)
    else (insertAt capacity k ledger (n.childIndex k) children).map
      (n.receive capacity (n.childIndex k))

/-- Insert a key below the node at a position of a list. -/
def insertAt (capacity : Nat) (k : Key) (ledger : Ledger) :
    Nat → List (Node Key) → Except Corruption (Growth × Ledger)
  | _, [] => .error .missingChild
  | 0, c :: _ => insert capacity k ledger c
  | i + 1, _ :: cs => insertAt capacity k ledger i cs

end

end Node

/-- What grew becomes the root; two halves take a new root above them. -/
def Growth.root : Growth × Ledger → Node Key × Ledger
  | (.whole n, ledger) => (n, ledger)
  | (.halves left median right, ledger) =>
    (⟨ledger.freshId, [median], [left, right]⟩, ledger.issue)

end TracedTree
