import TracedTree.Json.Numeral
import TracedTree.Json.Token

/-!
# Reading JSON

The reader takes the tokens one by one. It keeps the arrays and objects that are still open on a
stack, so the nesting of a text is not limited.
-/

namespace TracedTree.Json

/-- An array or object that waits for the end of a value inside it; what it holds before stands
last one first. -/
inductive Open where
  | element (before : List Json)
  | member (before : List (List Char × Json)) (name : List Char)

/-- What the reader expects next, inside the containers that are open. -/
inductive Reading where
  | value (outer : List Open)
  | firstElement (outer : List Open)
  | firstName (outer : List Open)
  | name (before : List (List Char × Json)) (outer : List Open)
  | colon (before : List (List Char × Json)) (name : List Char) (outer : List Open)
  /-- A value is complete; its container goes on or ends. -/
  | after (value : Json) (outer : List Open)

/-- The value of a word. -/
def ofWord? (written : List Char) : Option Json :=
  if written = ['n', 'u', 'l', 'l'] then some .null
  else if written = ['t', 'r', 'u', 'e'] then some (.bool true)
  else if written = ['f', 'a', 'l', 's', 'e'] then some (.bool false)
  else (Numeral.ofChars? written).map fun _ => .number written

namespace Reading

/-- Begin a value. -/
def begin? (outer : List Open) : Token → Option Reading
  | .mark .beginArray => some (firstElement outer)
  | .mark .beginObject => some (firstName outer)
  | .string written =>
    if Quoted.isWellFormed written then some (after (.string written) outer) else none
  | .word written => (ofWord? written).map (after · outer)
  | _ => none

/-- Take the name of a member. -/
def name? (before : List (List Char × Json)) (outer : List Open) : Token → Option Reading
  | .string written =>
    if Quoted.isWellFormed written then some (colon before written outer) else none
  | _ => none

/-- Take a token. -/
def step? : Reading → Token → Option Reading
  | value outer, t => begin? outer t
  | firstElement outer, .mark .endArray => some (after (.array []) outer)
  | firstElement outer, t => begin? (.element [] :: outer) t
  | firstName outer, .mark .endObject => some (after (.object []) outer)
  | firstName outer, t => name? [] outer t
  | name before outer, t => name? before outer t
  | colon before n outer, .mark .colon => some (value (.member before n :: outer))
  | after j (.element before :: outer), .mark .comma => some (value (.element (j :: before) :: outer))
  | after j (.element before :: outer), .mark .endArray =>
    some (after (.array (j :: before).reverse) outer)
  | after j (.member before n :: outer), .mark .comma => some (name ((n, j) :: before) outer)
  | after j (.member before n :: outer), .mark .endObject =>
    some (after (.object ((n, j) :: before).reverse) outer)
  | _, _ => none

/-- Take all tokens. -/
def run? (r : Reading) : List Token → Option Reading
  | [] => some r
  | t :: rest =>
    match r.step? t with
    | some next => run? next rest
    | none => none

/-- The value that was read, if nothing is open. -/
def result? : Reading → Option Json
  | after j [] => some j
  | _ => none

end Reading

/-- The value of a text. -/
def read? (text : String) : Option Json := do
  let tokens ← tokens? text.toList
  let reading ← (Reading.value []).run? tokens
  reading.result?

end TracedTree.Json
