/-!
# Stepping through strings of letters

Strings over the letters `A` to `Z` followed by `a` to `z`, up to a chosen length, in
lexicographic order. A string is stepped in slots: taken slots hold its characters, free slots
behind them may still be filled. Characters that are no letters are carried along but never
changed. Counts saturate at the largest 128-bit word.
-/

namespace TracedTree.Letters

/-- A string with the free slots behind it. -/
abbrev Slots := List (Option Char)

/-- The largest count. -/
def maxCount : Nat := Nat.pow 2 128 - 1

/-- The number of strings of a given length; from length 23 on it is the largest count. -/
def power (length : Nat) : Nat := min (Nat.pow 52 (min length 23)) maxCount

/-- A letter of the alphabet. -/
def isLetter (c : Char) : Bool := c.isAlpha

/-- The letters in their order. -/
def alphabet : List Char := "ABCDEFGHIJKLMNOPQRSTUVWXYZabcdefghijklmnopqrstuvwxyz".toList

/-- Some letter can be lowered, so there are strings below at every length. -/
def isEndless (s : List Char) : Bool := s.any fun c => isLetter c && c != 'A'

/-- A string in a given number of slots; what does not fit is cut off. -/
def slots (s : List Char) (length : Nat) : Slots :=
  (s.take length).map some ++ List.replicate (length - s.length) none

/-- The characters of the taken slots. -/
def filled (s : Slots) : List Char := s.reduceOption

/-- The number of letters behind a character. -/
def raises (c : Char) : Nat :=
  if c.isUpper then 'Z'.toNat - c.toNat + 26
  else if c.isLower then 'z'.toNat - c.toNat
  else 0

/-- The number of letters before a character. -/
def lowers (c : Char) : Nat :=
  if c.isUpper then c.toNat - 'A'.toNat
  else if c.isLower then c.toNat - 'a'.toNat + 26
  else 0

/-- The next letter; `a` follows `Z`. -/
def nextLetter (c : Char) : Char := if c = 'Z' then 'a' else Char.ofNat (c.toNat + 1)

/-- The previous letter; `Z` comes before `a`. -/
def previousLetter (c : Char) : Char := if c = 'a' then 'Z' else Char.ofNat (c.toNat - 1)

/-! ## Lengths -/

/-- A slot that the ascending walk fills with letters. -/
def isOpen (slot : Option Char) : Bool := slot.all isLetter

/-- How many strings the ascending walk reaches by raising one of some slots. -/
def raisedCount : Slots → Nat
  | [] => 0
  | slot :: rest =>
    let own := match slot with
      | some c => if isLetter c then raises c * power (rest.countP isOpen) else 0
      | none => 0
    min (raisedCount rest + min own maxCount) maxCount

/-- How many strings the ascending walk reaches in a given number of slots. -/
def ascendingSpace (s : List Char) (length : Nat) : Nat :=
  let all := slots s length
  let free := all.countP Option.isNone
  min ((if 0 < free then power free else 0) + raisedCount all) maxCount

/-- How many strings the descending walk reaches by lowering one of some slots. -/
def loweredCount : Slots → Nat
  | [] => 0
  | slot :: rest =>
    let own := match slot with
      | some c => if isLetter c && c != 'A' then lowers c * power rest.length else 0
      | none => 0
    min (min own maxCount + loweredCount rest) maxCount

/-- How many strings the descending walk reaches in a given number of slots. -/
def descendingSpace (s : List Char) (length : Nat) : Nat :=
  min ((if length < s.length then 1 else 0) + loweredCount (slots s length)) maxCount

/-- The first length past a given one at which the sum of the spaces of all lengths is enough.
The fuel bounds the lengths that are tried. -/
def searchLength (space : Nat → Nat) (enough : Nat → Bool) : Nat → Nat → Nat → Nat
  | 0, length, _ => length
  | fuel + 1, length, sum =>
    if enough sum then length
    else searchLength space enough fuel (length + 1) (min (sum + space (length + 1)) maxCount)

/-- The number of slots in which some strings can be reached upward. Each length past that of the
string itself adds at least one. -/
def ascendingLength (count : Nat) (s : List Char) : Nat :=
  searchLength (ascendingSpace s) (count ≤ ·) (s.length + count + 1) 0 0

/-- The number of slots in which some strings can be reached downward from an endless string; the
empty string is not among them. -/
def descendingLength (count : Nat) (s : List Char) : Nat :=
  searchLength (descendingSpace s) (count < ·) (s.length + count + 1) 0 1

/-- The shortest length up to which there are more strings than demanded. -/
def requiredLength (demand : Nat) : Nat :=
  searchLength power (demand < ·) (demand + 1) 0 0

/-! ## Steps -/

/-- The last position at which a property holds. -/
def lastIdx? {α : Type} (p : α → Bool) (xs : List α) : Option Nat :=
  (xs.reverse.findIdx? p).map (xs.length - 1 - ·)

/-- The slot holds a letter that can be raised. -/
def canRaise (slot : Option Char) : Bool := slot.any fun c => isLetter c && c != 'z'

/-- The next string: fill the first free slot, or raise the last letter that can be raised and
free all behind it. Without such a letter nothing changes. -/
def increment (s : Slots) : Slots :=
  match s.findIdx? (·.isNone) with
  | some i => s.set i (some 'A')
  | none =>
    match lastIdx? canRaise s with
    | some i =>
      s.take i ++ (s[i]?.map (·.map nextLetter)).toList ++ List.replicate (s.length - (i + 1)) none
    | none => s

/-- The previous string: lower the last character and fill the free slots, or drop it when it is
`A` or no letter. -/
def decrement (s : Slots) : Slots :=
  match lastIdx? Option.isSome s with
  | none => s
  | some i =>
    match s[i]?.join with
    | none => s
    | some c =>
      if isLetter c && c != 'A' then
        (s.set i (some (previousLetter c))).map fun slot => some (slot.getD 'z')
      else s.set i none

/-- The strings that a number of steps lead to. -/
def walk (step : Slots → Slots) : Nat → Slots → List (List Char)
  | 0, _ => []
  | n + 1, s => filled (step s) :: walk step n (step s)

/-- The strings that come next. -/
def ascendingStrings (count : Nat) (start : List Char) : List (List Char) :=
  walk increment count (slots start (ascendingLength count start))

/-- The string with its last characters dropped, one more each time. -/
def droppedStrings : Nat → List Char → List (List Char)
  | 0, _ => []
  | n + 1, s => s.dropLast :: droppedStrings n s.dropLast

/-- The strings that come before. From a string that is not endless only characters can be
dropped, and the empty string is repeated. -/
def descendingStrings (count : Nat) (start : List Char) : List (List Char) :=
  if isEndless start then
    walk decrement count (slots start (descendingLength count start))
  else droppedStrings count start

end TracedTree.Letters
