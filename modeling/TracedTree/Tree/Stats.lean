import TracedTree.Tree

/-!
# Statistics and outline

A summary of the shape of a tree, taken from its picture so that frames can be summarized as
well, and the outline of a tree as indented text.
-/

namespace TracedTree

/-- The shape of a tree or a frame. -/
structure Stats where
  height : Nat
  /-- The nodes that hold at least one key. -/
  nodeCount : Nat
  keyCount : Nat
  maxKeys : Nat
  /-- The share of the slots of those nodes that is in use. -/
  fillingDegree : Number
deriving DecidableEq

/-- Summarize a picture whose nodes have a given capacity. All slots together are counted in a
64-bit word. -/
def Stats.ofPicture (picture : Picture) (maxKeys : Nat) : Stats :=
  let slots := picture.holderCount * maxKeys % Nat.pow 2 64
  { height := picture.height
    nodeCount := picture.holderCount
    keyCount := picture.keyCount
    maxKeys
    fillingDegree := if slots = 0 then .zero else .ofFraction picture.keyCount slots }

/-- Summarize a tree. -/
def Tree.stats (t : Tree) : Stats := .ofPicture t.picture t.maxKeys

/-- The text of a picture, each line behind a given indentation. A leaf is one line with its
keys; an inner node brackets its children and the keys between them, two blanks further in. -/
def Node.outline : Picture → String → String :=
  Node.fold fun _ keys children indent =>
    if children.isEmpty then indent ++ "[" ++ String.intercalate ", " keys ++ "]"
    else
      let inner := indent ++ "  "
      let lines := Node.weave (children.map fun child => [child inner]) (keys.map (inner ++ ·))
      indent ++ "[\n" ++ String.join (lines.map (· ++ "\n")) ++ indent ++ "]"

/-- The text of a tree. -/
def Tree.outline (t : Tree) : String := t.picture.outline ""

end TracedTree
