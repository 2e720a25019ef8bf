import TracedTree.Tree.Document

/-!
# Presets

Example trees with operations that show one case of balancing each.
-/

namespace TracedTree

/-- The cases that presets show. -/
inductive Preset where
  | insert
  | delete
  | merge
  | rotation
deriving DecidableEq, Repr

namespace Preset

/-- All presets. -/
def all : List Preset := [insert, delete, merge, rotation]

/-- The name of a preset. -/
def name : Preset → String
  | insert => "insert"
  | delete => "delete"
  | merge => "merge"
  | rotation => "rotation"

/-- The preset with a given name. -/
def ofName? (name : String) : Option Preset := all.find? (·.name == name)

/-- The title of a preset. -/
def title : Preset → String
  | insert => "Insert"
  | delete => "Delete"
  | merge => "Merge"
  | rotation => "Rotation"

/-- A leaf with some numbers. -/
def leaf (id : Nat) (keys : List Nat) : Picture := ⟨id, keys.map toString, []⟩

/-- An inner node with some numbers and children. -/
def inner (id : Nat) (keys : List Nat) (children : List Picture) : Picture :=
  ⟨id, keys.map toString, children⟩

/-- The nodes of a preset's tree. -/
def picture : Preset → Picture
  | insert =>
    inner 3 [14, 25, 34, 68] [
      leaf 1 [2, 7, 13],
      leaf 4 [20, 22],
      leaf 6 [27, 30, 32, 33],
      leaf 5 [35, 40],
      leaf 2 [91, 93]]
  | delete | merge =>
    inner 9 [60] [
      inner 3 [15, 56] [
        leaf 1 [7, 12],
        leaf 5 [18, 30, 44],
        leaf 4 [57, 58, 59]],
      inner 8 [68, 82] [
        leaf 7 [63, 66],
        leaf 6 [69, 72],
        leaf 2 [86, 88]]]
  | rotation =>
    inner 9 [60] [
      inner 3 [15, 40, 56] [
        leaf 1 [7, 12],
        leaf 5 [18, 30, 35],
        leaf 10 [44, 45],
        leaf 4 [57, 58, 59]],
      inner 8 [68, 80] [
        leaf 7 [63, 66],
        leaf 6 [69, 70],
        leaf 2 [86, 88, 90]]]

/-- The document of a preset's tree, a number tree of default capacity. -/
def document (p : Preset) : Document := ⟨4, .number, p.picture⟩

/-- The keys that are inserted. -/
def adds : Preset → List Key
  | insert => [.ofInt 26]
  | _ => []

/-- The keys that are removed. -/
def removes : Preset → List Key
  | insert => []
  | delete => [.ofInt 30, .ofInt 60]
  | merge => [.ofInt 66]
  | rotation => [.ofInt 45, .ofInt 80]

end Preset

end TracedTree
