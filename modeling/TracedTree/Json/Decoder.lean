import TracedTree.Json.Reader
import TracedTree.Table

/-!
# Decoding JSON

A decoder turns a JSON value into a value of the library, or refuses it. Its first argument is
the number of levels of nesting that are left: an array or object that is looked into takes one.
What is skipped, such as a member of an unknown name, takes none and is not looked into.

A record is written as an object or as an array of its fields in their order. In an object every
name must be readable, a known name stands at most once, and unknown names are skipped; an array
may not be too long. In both forms a field may be missing as far as it has a default.
-/

namespace TracedTree

/-- A way to read a value from JSON. -/
def Decoder (α : Type) : Type := Nat → Json → Option α

namespace Decoder

variable {α κ ν : Type}

/-- The levels of nesting that a document may have. -/
def maxLevels : Nat := 127

/-- Read a text with a decoder. -/
def readText (d : Decoder α) (text : String) : Option α := do
  d maxLevels (← Json.read? text)

/-- A 64-bit word. -/
def word : Decoder Nat
  | _, .number written => (Numeral.ofChars? written).bind Numeral.word?
  | _, _ => none

/-- A finite number. -/
def number : Decoder Number
  | _, .number written => (Numeral.ofChars? written).bind Numeral.number?
  | _, _ => none

/-- A truth value. -/
def bool : Decoder Bool
  | _, .bool b => some b
  | _, _ => none

/-- A text. -/
def text : Decoder String
  | _, .string written => Quoted.decode? written
  | _, _ => none

/-- A list, from an array. -/
def list (d : Decoder α) : Decoder (List α)
  | levels + 1, .array elements => elements.mapM (d levels)
  | _, _ => none

/-- A table, from an object with its entries as members. The written names are read by a function
of their own; of equal keys the last one stays. -/
def table [Ord κ] [Std.TransOrd κ] (key : List Char → Option κ) (d : Decoder ν) :
    Decoder (Table κ ν)
  | levels + 1, .object members => do
    let entries ← members.mapM fun (name, j) => do return (← key name, ← d levels j)
    return .ofList entries
  | _, _ => none

/-- The key of an entry that is a text. -/
def textKey (written : List Char) : Option String := Quoted.decode? written

/-- The key of an entry that is a 64-bit word, written without escapes. -/
def wordKey (written : List Char) : Option Nat := (Numeral.ofChars? written).bind Numeral.word?

/-- One of some names: as a string, or as the only name of an object whose value is null. -/
def choice (value : String → Option α) : Decoder α
  | _, .string written => (Quoted.decode? written).bind value
  | _ + 1, .object [(name, .null)] => (Quoted.decode? name).bind value
  | _, _ => none

/-- The field of a given name, which may be missing but not stand twice. -/
def field (members : List (String × Json)) (name : String) : Option (Option Json) :=
  match members.filter (·.1 == name) with
  | [] => some none
  | [(_, j)] => some (some j)
  | _ => none

/-- The fields of a record in the order of their names. -/
def fields (names : List String) : Json → Option (List (Option Json))
  | .array elements =>
    if elements.length ≤ names.length then
      some (elements.map some ++ List.replicate (names.length - elements.length) none)
    else none
  | .object members => do
    let read ← members.mapM fun (name, j) => do return (← Quoted.decode? name, j)
    names.mapM (field read)
  | _ => none

/-- A record, whose fields are read by a function with the levels that are left to them. -/
def record (names : List String) (read : Nat → List (Option Json) → Option α) : Decoder α
  | 0, _ => none
  | levels + 1, j => (fields names j).bind (read levels)

/-- A field that must not be missing. -/
def required (d : Decoder α) (levels : Nat) (field : Option Json) : Option α :=
  field.bind (d levels)

/-- A field with a default. -/
def optional (d : Decoder α) (levels : Nat) (field : Option Json) (default : α) : Option α :=
  field.elim (some default) (d levels)

end Decoder

end TracedTree
