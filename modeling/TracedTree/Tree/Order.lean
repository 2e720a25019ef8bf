import TracedTree.Random
import TracedTree.Tree

/-!
# The order of a tree

Checks of a capacity, of an order, and of an order that was typed in, and the rebuilding of a
tree with another capacity.
-/

namespace TracedTree

/-- A capacity in keys is large enough. -/
def checkMaxKeys (maxKeys : Nat) : Except Error Unit :=
  if maxKeys < minMaxKeys then .error (.invalidOrder (.tooSmall (maxKeys + 1))) else .ok ()

/-- An order is large enough. -/
def checkOrder (order : Nat) : Except Error Unit :=
  if order < minOrder then .error (.invalidOrder (.tooSmall order)) else .ok ()

/-- The 64-bit word written by digits behind an optional plus sign. -/
def readWord? (text : List Char) : Option Nat :=
  let digits := if text.head? = some '+' then text.tail else text
  let value := Decimal.digitsValue digits
  if !digits.isEmpty && digits.all Char.isDigit && value < Nat.pow 2 64 then some value else none

/-- Read an order as it was typed in, blanks around it aside, and give the capacity in keys. -/
def readOrder (raw : String) : Except Error Nat :=
  match readWord? (Text.trim raw.toList) with
  | none => .error (.invalidOrder (.noInteger raw))
  | some order => do
    checkOrder order
    return order - 1

/-- A tree of another capacity with the same keys, which are inserted in random order. -/
def Tree.rebuild (t : Tree) (maxKeys : Nat) (supply : Supply) : Except Error Tree := do
  let fresh ← Tree.ofMaxKeys maxKeys t.kind
  fresh.addAll (supply.shuffle t.keys).1

end TracedTree
