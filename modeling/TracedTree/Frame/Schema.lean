import TracedTree.Frame
import TracedTree.Json.Decoder

/-!
# Frames as JSON

How pictures, highlights, counters and frames are written as JSON, and how they are read back.
Fields are written in a fixed order; a node without children is written without that field.
-/

namespace TracedTree

open Decoder (required optional record word bool text list table)

/-! ## Pictures -/

/-- The JSON value of a picture. -/
def Node.toJson : Picture → Json :=
  Node.fold fun id keys children =>
    let name := Json.record [("id", .ofNat id), ("keys", .array (keys.map .ofText))]
    .record <|
      ("name", name) :: if children.isEmpty then [] else [("children", .array children)]

/-- Read the identity and the labels of a node. -/
def Decoder.nodeName : Decoder (Nat × List String) :=
  record ["id", "keys"] fun
    | levels, [id, keys] => do return (← required word levels id, ← required (list text) levels keys)
    | _, _ => none

/-- Read a picture. A node takes two levels of nesting from its children, one for itself and one
for the array that they stand in. -/
def Decoder.picture : Decoder Picture
  | levels + 2, j =>
    let children : Decoder (List Picture) := fun _ j =>
      match j with
      | .array elements => elements.mapM (picture levels)
      | _ => none
    record ["name", "children"] (fun
      | left, [name, below] => do
        let (id, keys) ← required nodeName left name
        return ⟨id, keys, ← optional children left below []⟩
      | _, _ => none) (levels + 2) j
  | _, _ => none

/-! ## Highlights -/

/-- The JSON value of a table whose keys are numbers. -/
def Table.toJson {ν : Type} (value : ν → Json) (t : Table Nat ν) : Json :=
  .record (t.entries.map fun (k, v) => (toString k, value v))

/-- The JSON value of the emphasis on a node. -/
def NodeHighlight.toJson (n : NodeHighlight) : Json :=
  .record [
    ("fullHighlight", .bool n.full),
    ("nodeMessage", .ofText n.message),
    ("indexHighlights", .array (n.indices.map .ofNat)),
    ("indexMessages", n.indexMessages.toJson .ofText),
    ("separatorHighlights", .array (n.separators.map .ofNat)),
    ("separatorMessages", n.separatorMessages.toJson .ofText)]

/-- Read the emphasis on a node. -/
def Decoder.nodeHighlight : Decoder NodeHighlight :=
  record ["fullHighlight", "nodeMessage", "indexHighlights", "indexMessages",
      "separatorHighlights", "separatorMessages"] fun
    | levels, [full, message, indices, indexMessages, separators, separatorMessages] => do
      return {
        full := ← required bool levels full
        message := ← required text levels message
        indices := ← required (list word) levels indices
        indexMessages := ← required (table wordKey text) levels indexMessages
        separators := ← required (list word) levels separators
        separatorMessages := ← required (table wordKey text) levels separatorMessages }
    | _, _ => none

/-- The JSON value of the emphasis on an edge. -/
def edgeToJson (full : Bool) : Json := .record [("fullHighlight", .bool full)]

/-- Read the emphasis on an edge. -/
def Decoder.edge : Decoder Bool :=
  record ["fullHighlight"] fun
    | levels, [full] => required bool levels full
    | _, _ => none

/-- The JSON value of a highlight. -/
def Highlight.toJson (h : Highlight) : Json :=
  .record [
    ("nodes", h.nodes.toJson NodeHighlight.toJson),
    ("edges", .record (h.edges.entries.map fun (name, full) => (name, edgeToJson full)))]

/-- Read a highlight. -/
def Decoder.highlight : Decoder Highlight :=
  record ["nodes", "edges"] fun
    | levels, [nodes, edges] => do
      return ⟨← required (table wordKey nodeHighlight) levels nodes,
        ← required (table textKey edge) levels edges⟩
    | _, _ => none

/-! ## Frames -/

/-- The JSON value of counters. -/
def Counters.toJson (c : Counters) : Json :=
  .record [
    ("splits", .ofNat c.splits),
    ("merges", .ofNat c.merges),
    ("smallRotations", .ofNat c.smallRotations),
    ("bigRotations", .ofNat c.bigRotations)]

/-- Read counters. -/
def Decoder.counters : Decoder Counters :=
  record ["splits", "merges", "smallRotations", "bigRotations"] fun
    | levels, [splits, merges, small, big] => do
      return ⟨← required word levels splits, ← required word levels merges,
        ← required word levels small, ← required word levels big⟩
    | _, _ => none

/-- The JSON value of a frame. -/
def Frame.toJson (f : Frame) : Json :=
  .record [
    ("nodeData", f.picture.toJson),
    ("highlightData", f.highlight.toJson),
    ("counters", f.counters.toJson)]

/-- Read a frame. -/
def Decoder.frame : Decoder Frame :=
  record ["nodeData", "highlightData", "counters"] fun
    | levels, [shown, emphasis, tally] => do
      return ⟨← required picture levels shown, ← required highlight levels emphasis,
        ← required counters levels tally⟩
    | _, _ => none

end TracedTree
