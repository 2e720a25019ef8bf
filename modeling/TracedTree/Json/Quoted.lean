/-!
# Quoted text

The written form of a text inside JSON quotes. `encode` escapes the quote, the backslash and the
control characters and writes everything else as it is. Reading takes two steps: `pieces?`
resolves the escapes one by one, and `decode?` joins the two halves of a surrogate pair. A half
without its partner stands for no character, so it is well formed but has no text.
-/

namespace TracedTree.Quoted

/-- The digit of a number below sixteen, with small letters. -/
def hexDigit (n : Nat) : Char := Nat.digitChar (n % 16)

/-- The written form of one character. -/
def encodeChar (c : Char) : List Char :=
  if c = '"' then ['\\', '"']
  else if c = '\\' then ['\\', '\\']
  else if c.toNat = 0x08 then ['\\', 'b']
  else if c.toNat = 0x0c then ['\\', 'f']
  else if c = '\n' then ['\\', 'n']
  else if c = '\r' then ['\\', 'r']
  else if c = '\t' then ['\\', 't']
  else if c.toNat < 0x20 then
    ['\\', 'u', '0', '0', hexDigit (c.toNat / 16), hexDigit c.toNat]
  else [c]

/-- The written form of a text. -/
def encode (text : String) : List Char := text.toList.flatMap encodeChar

/-- What one character or one escape of a written text stands for. -/
inductive Piece where
  | char (c : Char)
  /-- A 16-bit unit given by its number. -/
  | unit (n : Nat)
deriving DecidableEq, Repr

/-- The value of a hexadecimal digit. -/
def hexValue? (c : Char) : Option Nat :=
  if c.isDigit then some (c.toNat - '0'.toNat)
  else if 'a' ≤ c ∧ c ≤ 'f' then some (c.toNat - 'a'.toNat + 10)
  else if 'A' ≤ c ∧ c ≤ 'F' then some (c.toNat - 'A'.toNat + 10)
  else none

/-- The value of four hexadecimal digits. -/
def hexValue4? (a b c d : Char) : Option Nat := do
  return (((← hexValue? a) * 16 + (← hexValue? b)) * 16 + (← hexValue? c)) * 16 + (← hexValue? d)

/-- The character of an escape of one letter. -/
def escape? : Char → Option Char
  | '"' => some '"'
  | '\\' => some '\\'
  | '/' => some '/'
  | 'b' => some '\x08'
  | 'f' => some '\x0c'
  | 'n' => some '\n'
  | 'r' => some '\r'
  | 't' => some '\t'
  | _ => none

/-- Resolve the escapes of a written text behind pieces that are known, last one first. -/
def piecesAfter (known : List Piece) : List Char → Option (List Piece)
  | [] => some known.reverse
  | '\\' :: 'u' :: a :: b :: c :: d :: rest =>
    match hexValue4? a b c d with
    | some n => piecesAfter (.unit n :: known) rest
    | none => none
  | '\\' :: e :: rest =>
    match escape? e with
    | some c => piecesAfter (.char c :: known) rest
    | none => none
  | ['\\'] => none
  | c :: rest => piecesAfter (.char c :: known) rest

/-- Resolve the escapes of a written text. -/
def pieces? (written : List Char) : Option (List Piece) := piecesAfter [] written

/-- Every escape of a written text can be resolved. -/
def isWellFormed (written : List Char) : Bool := (pieces? written).isSome

/-- Join pieces to characters behind those that are known, last one first. -/
def joinAfter (known : List Char) : List Piece → Option (List Char)
  | [] => some known.reverse
  | .char c :: rest => joinAfter (c :: known) rest
  | .unit n :: rest =>
    if n < 0xd800 ∨ 0xdfff < n then joinAfter (Char.ofNat n :: known) rest
    else match rest with
      | .unit m :: rest =>
        if n < 0xdc00 ∧ 0xdc00 ≤ m ∧ m ≤ 0xdfff then
          joinAfter (Char.ofNat (0x10000 + (n - 0xd800) * 0x400 + (m - 0xdc00)) :: known) rest
        else none
      | _ => none

/-- The text of a written form. -/
def decode? (written : List Char) : Option String := do
  return String.ofList (← joinAfter [] (← pieces? written))

end TracedTree.Quoted
