import TracedTree.Error
import TracedTree.Random

/-!
# Batches of keys

A batch is a list of new keys with the range that they come from.
-/

namespace TracedTree

/-- The order in which the keys of a batch come. -/
inductive BatchOrder where
  | ascending
  | descending
  | random
deriving DecidableEq, Repr

/-- The name of an order of keys. -/
def BatchOrder.name : BatchOrder → String
  | ascending => "asc"
  | descending => "desc"
  | random => "random"

/-- The order of keys with a given name. -/
def BatchOrder.ofName (name : String) : Except Error BatchOrder :=
  match [ascending, descending, random].find? (·.name == name) with
  | some order => .ok order
  | none => .error (.invalidGeneration (.unknownOrder name))

/-- New keys, and the smallest and the largest key of their range. -/
structure Batch where
  keys : List Key
  low : Key
  high : Key
deriving DecidableEq

/-- The batch of ascending keys. -/
def Batch.ofAscending (keys : List Key) : Batch :=
  ⟨keys, keys.head?.getD (.ofInt 0), keys.getLast?.getD (.ofInt 0)⟩

/-- The batch of descending keys. -/
def Batch.ofDescending (keys : List Key) : Batch :=
  ⟨keys, keys.getLast?.getD (.ofInt 0), keys.head?.getD (.ofInt 0)⟩

end TracedTree
