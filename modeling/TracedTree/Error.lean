import TracedTree.Node.Insert

/-!
# Errors

The reasons for which a request is refused, grouped by what was wrong with it, and the text in
which each of them is reported. Looking up or removing an absent key is an answer and no error.
-/

namespace TracedTree

/-- What keeps a tree from being a valid one. -/
inductive Flaw where
  | unsortedKeys (id : Nat)
  | overfull (id held capacity : Nat)
  | underfull (id held minimum : Nat)
  | belowBound (id : Nat) (key bound : Key)
  | aboveBound (id : Nat) (key bound : Key)
  | wrongKind (id : Nat) (key : Key)
  | childMismatch (id keys children : Nat)
  | emptyInnerRoot (id : Nat)
  | unevenLeaves (least greatest : Nat)
  | repeatedId (id : Nat)
  | staleLastId (lastId id : Nat)
deriving DecidableEq

/-- What is wrong with a document of a tree. -/
inductive ImportFault where
  /-- The text is no document at all. -/
  | unreadable
  | capacityTooSmall (maxKeys : Nat)
  | overfullNode (id held capacity : Nat)
  | childMismatch (id keys children : Nat)
  | unreadableKey (raw : String) (kind : Kind)
  | flawed (flaw : Flaw)
deriving DecidableEq

/-- What is wrong with an order, the largest number of children of a node. -/
inductive OrderFault where
  | tooSmall (order : Nat)
  | noInteger (raw : String)
deriving DecidableEq

/-- What is wrong with a key that was typed in. -/
inductive InputFault where
  | empty
  | duplicate (raw : String)
  | absent (key : Key)
deriving DecidableEq

/-- What is wrong with a request for a batch of keys. -/
inductive BatchFault where
  | noCount
  | unknownOrder (name : String)
  | keysTooLarge
  | emptyRange (low high : Int)
  | tooFewFree (free : Nat) (low high : Int)
  /-- The supply of random words ran dry. -/
  | exhausted
deriving DecidableEq

/-- The reasons to refuse a request. -/
inductive Error where
  | malformedImport (fault : ImportFault)
  | invalidOrder (fault : OrderFault)
  | kindMismatch (expected found : Kind)
  | invalidKey (fault : InputFault)
  | invalidGeneration (fault : BatchFault)
  | unknownMode (name : String)
  | corrupted (corruption : Corruption)
deriving DecidableEq

/-- The smallest capacity of a node in keys. -/
def minMaxKeys : Nat := 2

/-- The smallest order, which is the smallest capacity in children. -/
def minOrder : Nat := minMaxKeys + 1

/-- The text that reports a flaw. -/
def Flaw.message : Flaw → String
  | unsortedKeys id => s!"Node {id} has unsorted keys"
  | overfull id held capacity => s!"Node {id} holds {held} keys (capacity {capacity})"
  | underfull id held minimum => s!"Node {id} holds {held} keys (minimum {minimum})"
  | belowBound id key bound => s!"Node {id} has key {key.label} below bound {bound.label}"
  | aboveBound id key bound => s!"Node {id} has key {key.label} above bound {bound.label}"
  | wrongKind id key => s!"Node {id} holds {key.label} of the wrong kind"
  | childMismatch id keys children => s!"Node {id} has {keys} keys but {children} children"
  | emptyInnerRoot id => s!"Internal root {id} holds no keys"
  | unevenLeaves least greatest => s!"Leaves sit at depths {least} through {greatest}"
  | repeatedId id => s!"Node id {id} appears more than once"
  | staleLastId lastId id => s!"Id counter {lastId} is behind node id {id}"

/-- The text that reports a document's fault: the part that is at fault, and what is wrong. -/
def ImportFault.message : ImportFault → String
  | unreadable => "JSON"
  | capacityTooSmall maxKeys => s!"maxKeys: {maxKeys} is below the minimum of {minMaxKeys}"
  | overfullNode id held capacity => s!"Node: {id} holds {held} keys (capacity {capacity})"
  | childMismatch id keys children => s!"Node: {id} has {keys} keys but {children} children"
  | unreadableKey raw kind => s!"Key: '{raw}' is not a {kind.name}"
  | flawed flaw => s!"Tree structure: {flaw.message}"

/-- The text that reports an order's fault. -/
def OrderFault.message : OrderFault → String
  | tooSmall order => s!"Order {order} is invalid (minimum required: {minOrder})"
  | noInteger raw => s!"'{raw}' is not an integer"

/-- The text that reports an input's fault. -/
def InputFault.message : InputFault → String
  | empty => "Cannot insert empty"
  | duplicate raw => s!"The key {raw} would be duplicate."
  | absent key => s!"Key {key.label} does not exist in the tree/queue"

/-- The text that reports the fault of a batch request. -/
def BatchFault.message : BatchFault → String
  | noCount => "Input must be an integer >= 1"
  | unknownOrder name => s!"unknown key order '{name}'"
  | keysTooLarge => "existing keys too large to pick a range"
  | emptyRange low high => s!"empty range [{low}, {high}]; existing keys must be ascending"
  | tooFewFree free low high => s!"only {free} unused keys between {low} and {high}"
  | exhausted => "no random words left"

/-- The text that reports a corruption. -/
def Corruption.message : Corruption → String
  | missingChild => "corrupted tree: a child is missing"
  | emptyLeaf id => s!"corrupted tree: leaf {id} under an internal key is empty"
  | noUsableSibling id => s!"corrupted tree: node {id} underflowed without a usable sibling"

/-- The text that reports an error. -/
def Error.message : Error → String
  | malformedImport fault => s!"Malformed import: {fault.message}"
  | invalidOrder fault => s!"Invalid order: {fault.message}"
  | kindMismatch expected found =>
    s!"Key of type {found.name} does not match tree keys of type {expected.name}"
  | invalidKey fault => s!"Invalid key input: {fault.message}"
  | invalidGeneration fault => s!"Invalid generation request: {fault.message}"
  | unknownMode name => s!"unknown playback mode '{name}'"
  | corrupted corruption => corruption.message

end TracedTree
