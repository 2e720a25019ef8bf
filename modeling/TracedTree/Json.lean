import TracedTree.Json.Quoted

/-!
# JSON values

A JSON value as it is written. Strings and numbers keep their written form, because some of
their spellings are read differently depending on what is expected in their place; members of
an object keep their order and may repeat a name. `Json.write` gives the text without blanks.
-/

namespace TracedTree

/-- A JSON value. -/
inductive Json where
  | null
  | bool (value : Bool)
  | number (written : List Char)
  | string (written : List Char)
  | array (elements : List Json)
  | object (members : List (List Char × Json))
deriving Repr

namespace Json

/-- The value of a text. -/
def ofText (text : String) : Json := .string (Quoted.encode text)

/-- The value of a natural number. -/
def ofNat (n : Nat) : Json := .number (Nat.toDigits 10 n)

/-- The object with given names and values. -/
def record (members : List (String × Json)) : Json :=
  .object (members.map fun (name, value) => (Quoted.encode name, value))

/-- Put a written string into quotes. -/
def quote (written : List Char) : List Char := '"' :: (written ++ ['"'])

mutual

/-- The text of a value. -/
def writeChars : Json → List Char
  | .null => ['n', 'u', 'l', 'l']
  | .bool true => ['t', 'r', 'u', 'e']
  | .bool false => ['f', 'a', 'l', 's', 'e']
  | .number written => written
  | .string written => quote written
  | .array elements => '[' :: ([','].intercalate (writeElements elements) ++ [']'])
  | .object members => '{' :: ([','].intercalate (writeMembers members) ++ ['}'])

/-- The texts of the elements of an array. -/
def writeElements : List Json → List (List Char)
  | [] => []
  | j :: js => writeChars j :: writeElements js

/-- The texts of the members of an object. -/
def writeMembers : List (List Char × Json) → List (List Char)
  | [] => []
  | (name, j) :: rest => (quote name ++ ':' :: writeChars j) :: writeMembers rest

end

/-- The text of a value. -/
def write (j : Json) : String := String.ofList j.writeChars

end Json

end TracedTree
