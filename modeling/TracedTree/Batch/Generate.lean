import TracedTree.Batch.Numbers
import TracedTree.Batch.Texts

/-!
# Generating batches

A batch is generated next to existing keys, which are given in ascending order and are of the
kind of the batch.
-/

namespace TracedTree

/-- Generate a number of keys of a kind in an order. The supply is used by random batches only. -/
def Batch.generate (count : Nat) (order : BatchOrder) (kind : Kind) (existing : List Key)
    (duplicates : Bool) (supply : Supply) : Except Error Batch :=
  if count = 0 then .error (.invalidGeneration .noCount)
  else match existing.find? (·.kind != kind) with
    | some key => .error (.kindMismatch kind key.kind)
    | none =>
      match kind with
      | .number =>
        let numbers := existing.filterMap Key.number?
        match order with
        | .ascending => .ok (ascendingNumbers count numbers)
        | .descending => .ok (descendingNumbers count numbers)
        | .random => randomNumbers count numbers duplicates supply
      | .text =>
        let texts := (existing.filterMap Key.text?).map unquoted
        match order with
        | .ascending => .ok (ascendingTexts count texts)
        | .descending => .ok (descendingTexts count texts duplicates)
        | .random => randomTexts count texts duplicates supply

end TracedTree
