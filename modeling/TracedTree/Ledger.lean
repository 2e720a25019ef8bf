/-!
# Ledgers

What a tree keeps count of beside its nodes: the last identity that was handed out, and how
often each kind of balancing step was taken.
-/

namespace TracedTree

/-- How often each kind of balancing step was taken. -/
structure Counters where
  splits : Nat := 0
  merges : Nat := 0
  smallRotations : Nat := 0
  bigRotations : Nat := 0
deriving DecidableEq, Repr

/-- The last identity handed out and the balancing steps so far. -/
structure Ledger where
  lastId : Nat
  counters : Counters
deriving DecidableEq, Repr

namespace Ledger

/-- The identity that the next new node takes. -/
def freshId (l : Ledger) : Nat := l.lastId + 1

/-- An identity for a node that is only shown and never made. -/
def proposedId (l : Ledger) : Nat := l.lastId + 10

/-- A node was made. -/
def issue (l : Ledger) : Ledger := { l with lastId := l.freshId }

/-- A node was split; the right half is a new node. -/
def split (l : Ledger) : Ledger :=
  ⟨l.freshId, { l.counters with splits := l.counters.splits + 1 }⟩

/-- Two nodes were merged. -/
def merge (l : Ledger) : Ledger :=
  { l with counters := { l.counters with merges := l.counters.merges + 1 } }

/-- A key was rotated between leaves. -/
def smallRotation (l : Ledger) : Ledger :=
  { l with counters := { l.counters with smallRotations := l.counters.smallRotations + 1 } }

/-- A key and a child were rotated between inner nodes. -/
def bigRotation (l : Ledger) : Ledger :=
  { l with counters := { l.counters with bigRotations := l.counters.bigRotations + 1 } }

end Ledger

end TracedTree
