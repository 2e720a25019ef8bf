import TracedTree.Node
import TracedTree.Table

/-!
# Highlights

A highlight says what to emphasize in a picture of a tree: nodes, key slots, the gaps between
keys, and edges, each with an optional message. A picture is a tree whose keys are labels. Slots
and gaps are counted from zero, gap `i` standing left of slot `i`.
-/

namespace TracedTree

/-- A tree as it is shown: nodes with the labels of their keys. -/
abbrev Picture := Node String

/-- The emphasis on one node. -/
structure NodeHighlight where
  full : Bool
  message : String
  indices : List Nat
  indexMessages : Table Nat String
  separators : List Nat
  separatorMessages : Table Nat String
deriving DecidableEq

/-- No emphasis. -/
def NodeHighlight.none : NodeHighlight := ⟨false, "", [], .empty, [], .empty⟩

/-- Everything that is emphasized in one frame. An edge is emphasized in full or in part. -/
structure Highlight where
  nodes : Table Nat NodeHighlight
  edges : Table String Bool
deriving DecidableEq

/-- The name of the edge between two nodes: the identity of the upper one followed directly by
that of the lower one. -/
def edgeName (source target : Nat) : String := toString source ++ toString target

/-- Append an element unless it is present. -/
def appendNew (xs : List Nat) (x : Nat) : List Nat :=
  if xs.contains x then xs else xs ++ [x]

namespace Highlight

/-- Nothing is emphasized. -/
def none : Highlight := ⟨.empty, .empty⟩

/-- Nothing is emphasized in the highlight. -/
def isNone (h : Highlight) : Bool := h.nodes.isEmpty && h.edges.isEmpty

/-- Change the emphasis on a node, starting from no emphasis. -/
def onNode (h : Highlight) (id : Nat) (f : NodeHighlight → NodeHighlight) : Highlight :=
  { h with nodes := h.nodes.alter id fun old => f (old.getD .none) }

/-- Set the flag and the message of a node. Slots and gaps of the node stay as they are. -/
def node (h : Highlight) (id : Nat) (full : Bool) (message : String) : Highlight :=
  h.onNode id fun n => { n with full, message }

/-- Emphasize a key slot with a message. -/
def index (h : Highlight) (id i : Nat) (message : String) : Highlight :=
  h.onNode id fun n =>
    { n with indices := appendNew n.indices i, indexMessages := n.indexMessages.insert i message }

/-- Emphasize a gap with a message. -/
def separator (h : Highlight) (id i : Nat) (message : String) : Highlight :=
  h.onNode id fun n =>
    { n with
      separators := appendNew n.separators i
      separatorMessages := n.separatorMessages.insert i message }

/-- Emphasize an edge given by its name. -/
def edgeNamed (h : Highlight) (name : String) (full : Bool) : Highlight :=
  { h with edges := h.edges.insert name full }

/-- Emphasize the edge between two nodes. -/
def edge (h : Highlight) (source target : Nat) (full : Bool) : Highlight :=
  h.edgeNamed (edgeName source target) full

/-- Emphasize all slots of one node and the edges below it. -/
def ownSlots (h : Highlight) (n : Picture) : Highlight :=
  n.children.foldl (fun h child => h.edge n.id child.id false)
    ((List.range n.keys.length).foldl (fun h i => h.index n.id i "") h)

/-- Emphasize a node with everything below it. -/
def below (h : Highlight) (n : Picture) : Highlight := n.preorder.foldl ownSlots h

/-- Emphasize a slot of a node and all that hangs from the children on both sides of it. -/
def slotBelow (h : Highlight) (n : Picture) (i : Nat) : Highlight :=
  [n.children[i]?, n.children[i + 1]?].reduceOption.foldl
    (fun h child => (h.edge n.id child.id false).below child) (h.index n.id i "")

/-- Emphasize some slots of a node and all that hangs from the children beside them. -/
def slotsBelow (h : Highlight) (n : Picture) (slots : List Nat) : Highlight :=
  slots.foldl (·.slotBelow n ·) h

/-- The same for the node with a given identity in a picture. Nothing changes when the picture
does not show it. -/
def subtree (h : Highlight) (id : Nat) (slots : List Nat) (picture : Picture) : Highlight :=
  (picture.find? id).elim h (h.slotsBelow · slots)

end Highlight

end TracedTree
