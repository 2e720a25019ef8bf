import TracedTree.Json

/-!
# JSON tokens

A JSON text is a sequence of marks, strings and words with blanks between them; a word is a
numeral or one of the three names. A string ends at the first quote that is not escaped and holds
no control character; its escapes are not looked at here.
-/

namespace TracedTree.Json

/-- The structural characters. -/
inductive Mark where
  | beginArray
  | endArray
  | beginObject
  | endObject
  | comma
  | colon
deriving DecidableEq, Repr

/-- The mark of a character. -/
def Mark.ofChar? : Char → Option Mark
  | '[' => some beginArray
  | ']' => some endArray
  | '{' => some beginObject
  | '}' => some endObject
  | ',' => some comma
  | ':' => some colon
  | _ => none

/-- A token. -/
inductive Token where
  | mark (m : Mark)
  | string (written : List Char)
  | word (written : List Char)
deriving DecidableEq, Repr

/-- The blanks between tokens. -/
def isGap (c : Char) : Bool := c == ' ' || c == '\t' || c == '\n' || c == '\r'

/-- The characters of numerals and names. -/
def isWordChar (c : Char) : Bool := c.isAlphanum || c == '-' || c == '+' || c == '.'

/-- Where a scan stands: between tokens or inside one, with its characters last one first. -/
inductive Scan where
  | between
  | word (seen : List Char)
  | string (seen : List Char)
  /-- Behind a backslash in a string. -/
  | escaped (seen : List Char)
deriving DecidableEq, Repr

namespace Scan

/-- Read a character between tokens. -/
def start? (c : Char) : Option (Scan × List Token) :=
  if isGap c then some (between, [])
  else if c = '"' then some (string [], [])
  else if isWordChar c then some (word [c], [])
  else (Mark.ofChar? c).map fun m => (between, [.mark m])

/-- Read a character. The tokens that it completes are given in their order. -/
def step? : Scan → Char → Option (Scan × List Token)
  | between, c => start? c
  | word seen, c =>
    if isWordChar c then some (word (c :: seen), [])
    else (start? c).map fun (next, tokens) => (next, .word seen.reverse :: tokens)
  | string seen, c =>
    if c = '"' then some (between, [.string seen.reverse])
    else if c = '\\' then some (escaped (c :: seen), [])
    else if c.toNat < 0x20 then none
    else some (string (c :: seen), [])
  | escaped seen, c => if c.toNat < 0x20 then none else some (string (c :: seen), [])

/-- The token that the end of the text completes; a string must be closed. -/
def finish? : Scan → Option (List Token)
  | between => some []
  | word seen => some [.word seen.reverse]
  | string _ => none
  | escaped _ => none

/-- Scan a text behind tokens that are known, last one first. -/
def run? (scan : Scan) (known : List Token) : List Char → Option (List Token)
  | [] => scan.finish?.map (known.reverse ++ ·)
  | c :: rest =>
    match scan.step? c with
    | some (next, tokens) => run? next (tokens.reverse ++ known) rest
    | none => none

end Scan

/-- The tokens of a text. -/
def tokens? (text : List Char) : Option (List Token) := Scan.between.run? [] text

end TracedTree.Json
