import TracedTree.Frame.Schema
import TracedTree.Tree.Document

/-!
# Export and import

A tree is exported as the JSON text of its document. Importing accepts any JSON text of a
document, with its fields in any order and with unknown ones among them, and restores the tree.
-/

namespace TracedTree

/-- The kind of a name. -/
def Kind.ofName? (name : String) : Option Kind :=
  if name = Kind.number.name then some .number
  else if name = Kind.text.name then some .text
  else none

/-- The JSON value of a document. -/
def Document.toJson (d : Document) : Json :=
  .record [
    ("maxKeys", .ofNat d.maxKeys),
    ("keyType", .ofText d.kind.name),
    ("nodeData", d.picture.toJson)]

/-- Read a document. -/
def Decoder.document : Decoder Document :=
  record ["maxKeys", "keyType", "nodeData"] fun
    | levels, [maxKeys, kind, nodes] => do
      return ⟨← required word levels maxKeys, ← required (choice Kind.ofName?) levels kind,
        ← required picture levels nodes⟩
    | _, _ => none

/-- The text from which a tree can be restored. -/
def Tree.exportText (t : Tree) : String := t.document.toJson.write

/-- Restore a tree from a text. -/
def Tree.importText (text : String) : Except Error Tree :=
  match Decoder.document.readText text with
  | none => .error (.malformedImport .unreadable)
  | some d => d.tree.mapError .malformedImport

end TracedTree
