import TracedTree.Highlight
import TracedTree.Key
import TracedTree.Ledger
import TracedTree.Node.Insert

/-!
# Frames

A frame is one step of an operation as it is shown: a picture, what is emphasized in it, and the
counters at that moment. Frames of a subtree become frames of the whole tree by `Frame.within`,
which puts their pictures in the place of a child.
-/

namespace TracedTree

/-- One step of an operation. -/
structure Frame where
  picture : Picture
  highlight : Highlight
  counters : Counters
deriving DecidableEq

/-- A live tree as it is shown. -/
def Node.picture : Node Key → Picture := Node.map Key.label

/-- The frame with its picture shown as a child of a larger picture. -/
def Frame.within (parent : Picture) (i : Nat) (f : Frame) : Frame :=
  { f with picture := parent.withChild i f.picture }

end TracedTree
