import TracedTree.Number.Shortest
import TracedTree.Text.Blank

/-!
# Keys

A key is a finite number or a text. Numbers compare by value and stand before all texts; texts
compare by code points. The two zeros are equal in this order but not identical, so "the same
key" is always decided by `Key.same` and never by identity.
-/

namespace TracedTree

/-- The two kinds of keys. -/
inductive Kind where
  | number
  | text
deriving DecidableEq, Repr

/-- The name of a kind in messages and documents. -/
def Kind.name : Kind → String
  | number => "number"
  | text => "string"

/-- A key. -/
inductive Key where
  | number (value : Number)
  | text (value : String)
deriving DecidableEq, Repr

namespace Key

/-- Numbers by value, then texts by code points. -/
def order : Key → Key → Ordering
  | number x, number y => compare x.rank y.rank
  | text s, text t => compare s t
  | number _, text _ => .lt
  | text _, number _ => .gt

instance : Ord Key := ⟨order⟩

theorem compare_def (a b : Key) : compare a b = order a b := rfl

instance : Std.OrientedOrd Key where
  eq_swap {a b} := by
    cases a <;> cases b <;> simp only [compare_def, order, Ordering.swap_lt, Ordering.swap_gt]
    · exact Std.OrientedOrd.eq_swap
    · exact Std.OrientedOrd.eq_swap

instance : Std.TransOrd Key where
  isLE_trans {a b c} hab hbc := by
    cases a <;> cases b <;> cases c <;>
      simp only [compare_def, order, Ordering.isLE_lt, Ordering.isLE_gt, Bool.false_eq_true]
        at hab hbc ⊢
    · exact Std.TransCmp.isLE_trans hab hbc
    · exact Std.TransCmp.isLE_trans hab hbc

/-- The first key stands before the second or with it. -/
def le (a b : Key) : Bool := (compare a b).isLE

/-- The first key stands before the second. -/
def lt (a b : Key) : Bool := compare a b == .lt

/-- The two keys are equal in the order. -/
def same (a b : Key) : Bool := compare a b == .eq

/-- Which kind of key it is. -/
def kind : Key → Kind
  | number _ => .number
  | text _ => .text

/-- The number in a number key. -/
def number? : Key → Option Number
  | number x => some x
  | text _ => none

/-- The text in a text key. -/
def text? : Key → Option String
  | number _ => none
  | text s => some s

/-- How a key is shown. Zero is shown without a sign. -/
def label : Key → String
  | number x => if x.isZero then "0" else x.text
  | text s => s

/-- The finite number that a text stands for, blanks at its ends aside. -/
def readNumber? (raw : String) : Option Number :=
  Number.read? (Text.trim raw.toList)

/-- Read a text as a key of a given kind. Every text is a text key. -/
def ofText? (raw : String) : Kind → Option Key
  | .number => (readNumber? raw).map number
  | .text => some (text raw)

/-- The text begins and ends with a double quote; one quote alone does both. -/
def isQuoted (raw : String) : Bool :=
  raw.toList.head? == some '"' && raw.toList.getLast? == some '"'

/-- Interpret what a user typed: quoted input is a text with its quotes, other input is a number
if it can be read as a finite one, and everything else is a text. -/
def ofInput (raw : String) : Key :=
  if isQuoted raw then text raw
  else match readNumber? raw with
    | some x => number x
    | none => text raw

/-- The key of an integer. -/
def ofInt (i : Int) : Key := number (.ofInt i)

end Key

end TracedTree
