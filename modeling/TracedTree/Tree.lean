import TracedTree.Error
import TracedTree.Frame.Remove

/-!
# Trees

A tree is a root with the capacity of its nodes, the kind of its keys, a ledger, and the frames
recorded so far while it is recording. `Tree.add` and `Tree.remove` change root and ledger in the
same way whether the tree is recording or not; recording only appends their frames.
-/

namespace TracedTree

/-- A search tree that can record what its operations do. -/
structure Tree where
  /-- The capacity of a node in keys. -/
  maxKeys : Nat
  kind : Kind
  root : Node Key
  ledger : Ledger
  /-- The frames since recording was started, if it was. -/
  recording : Option (List Frame)
  two_le_maxKeys : 2 ≤ maxKeys
deriving DecidableEq

namespace Tree

/-! ## Making trees -/

/-- The capacity of a tree for which none is asked. -/
def defaultMaxKeys : Nat := 4

/-- A tree without keys; its root has identity one. -/
def empty (maxKeys : Nat) (kind : Kind) (two_le_maxKeys : 2 ≤ maxKeys) : Tree :=
  ⟨maxKeys, kind, ⟨1, [], []⟩, ⟨1, {}⟩, none, two_le_maxKeys⟩

/-- The empty number tree of default capacity. -/
def default : Tree := empty defaultMaxKeys .number (by decide)

instance : Inhabited Tree := ⟨default⟩

/-- An empty tree of a given capacity in keys, if the capacity is large enough. -/
def ofMaxKeys (maxKeys : Nat) (kind : Kind) : Except Error Tree :=
  if h : 2 ≤ maxKeys then .ok (empty maxKeys kind h)
  else .error (.invalidOrder (.tooSmall (maxKeys + 1)))

/-- An empty tree of a given order, if the order is large enough. -/
def ofOrder (order : Nat) (kind : Kind) : Except Error Tree :=
  if order < minOrder then .error (.invalidOrder (.tooSmall order))
  else ofMaxKeys (order - 1) kind

/-! ## Queries -/

/-- The number of keys below which a node other than the root is repaired. -/
def minKeys (t : Tree) : Nat := t.maxKeys / 2

/-- The largest number of children of a node, in a 64-bit word. -/
def order (t : Tree) : Nat := (t.maxKeys + 1) % Nat.pow 2 64

/-- All keys in ascending order. -/
def keys (t : Tree) : List Key := t.root.inorder

/-- The number of keys. -/
def size (t : Tree) : Nat := t.root.keyCount

/-- The root holds no keys. -/
def isEmpty (t : Tree) : Bool := t.root.keys.isEmpty

/-- The number of edges from the root to the leaves. -/
def height (t : Tree) : Nat := t.root.height

/-- The number of nodes; an empty tree has none. -/
def nodeCount (t : Tree) : Nat := if t.isEmpty then 0 else t.root.nodeCount

/-- The balancing steps so far. -/
def counters (t : Tree) : Counters := t.ledger.counters

/-- The tree as it is shown. -/
def picture (t : Tree) : Picture := t.root.picture

/-- The frame of the tree at rest. -/
def settledFrame (t : Tree) : Frame := ⟨t.picture, .none, t.counters⟩

/-! ## Recording -/

/-- The tree is recording. -/
def isRecording (t : Tree) : Bool := t.recording.isSome

/-- Record from now on; frames recorded before are kept. -/
def startRecording (t : Tree) : Tree := { t with recording := some (t.recording.getD []) }

/-- Stop recording and hand out the frames. -/
def finishRecording (t : Tree) : List Frame × Tree :=
  (t.recording.getD [], { t with recording := none })

/-- Set all counters to zero. -/
def resetCounters (t : Tree) : Tree := { t with ledger := { t.ledger with counters := {} } }

/-! ## Operations -/

/-- A frame that announces an operation at the root. -/
def announcement (t : Tree) (message : String) : Frame :=
  ⟨t.picture, Highlight.none.node t.root.id false message, t.counters⟩

/-- The frames of inserting a key. -/
def addFrames (t : Tree) (k : Key) : List Frame :=
  t.announcement ("Inserting " ++ k.label) ::
    t.root.insertFrames t.maxKeys k t.ledger ++
    (t.root.insert t.maxKeys k t.ledger).toOption.toList.flatMap Growth.rootFrames

/-- The frames of removing a key. -/
def removeFrames (t : Tree) (k : Key) : List Frame :=
  t.announcement ("Removing " ++ k.label) ::
    t.root.removeFrames t.minKeys k t.ledger ++
    (t.root.remove t.minKeys k t.ledger).toOption.toList.flatMap fun r =>
      r.node.collapseFrames r.ledger

/-- The tree with another root and ledger, and with more frames if it is recording. -/
def advance (t : Tree) (root : Node Key) (ledger : Ledger) (frames : Unit → List Frame) : Tree :=
  { t with root, ledger, recording := t.recording.map (· ++ frames ()) }

/-- Insert a key. Equal keys are kept and the new one comes behind them; a key of the other kind
is refused. -/
def add (t : Tree) (k : Key) : Except Error Tree :=
  if k.kind ≠ t.kind then .error (.kindMismatch t.kind k.kind)
  else match t.root.insert t.maxKeys k t.ledger with
    | .error c => .error (.corrupted c)
    | .ok growth =>
      let (root, ledger) := Growth.root growth
      .ok (t.advance root ledger fun _ => t.addFrames k)

/-- Remove one occurrence of a key and tell whether there was one. A key of the other kind is
absent. -/
def remove (t : Tree) (k : Key) : Except Error (Bool × Tree) :=
  if k.kind ≠ t.kind then .ok (false, t)
  else match t.root.remove t.minKeys k t.ledger with
    | .error c => .error (.corrupted c)
    | .ok r => .ok (r.found, t.advance r.node.collapse r.ledger fun _ => t.removeFrames k)

/-- Insert keys one after the other. -/
def addAll (t : Tree) (keys : List Key) : Except Error Tree := keys.foldlM add t

end Tree

namespace Node

mutual

/-- Look a key up below a node. -/
def contains (k : Key) : Node Key → Bool
  | ⟨_, keys, children⟩ =>
    if children.isEmpty then keys.any k.same else containsBeside k children keys

/-- Look a key up among children and the separators to their right, from left to right. -/
def containsBeside (k : Key) : List (Node Key) → List Key → Bool
  | [], _ => false
  | [c], [] => contains k c
  | _ :: cs, [] => containsBeside k cs []
  | c :: cs, separator :: keys =>
    if k.same separator then true
    else if k.lt separator then contains k c
    else containsBeside k cs keys

end

end Node

/-- The tree holds a key. -/
def Tree.contains (t : Tree) (k : Key) : Bool := k.kind == t.kind && t.root.contains k

end TracedTree
