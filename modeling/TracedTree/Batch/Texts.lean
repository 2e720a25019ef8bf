import Std.Data.HashSet
import TracedTree.Batch
import TracedTree.Batch.Letters

/-!
# Batches of texts

New texts are strings of letters in double quotes. Existing texts are compared without their
quotes. Ordered batches step on from the largest or down from the smallest existing text that
can be lowered; random batches draw strings up to a length at which at most about half of them
are taken.
-/

namespace TracedTree.Batch

open Letters

/-- The characters between the quotes of a quoted text, or of the whole text. -/
def unquoted (text : String) : List Char :=
  let chars := text.toList
  if Key.isQuoted text && 2 ≤ chars.length then chars.tail.dropLast else chars

/-- The key of a string of letters. -/
def textKey (s : List Char) : Key := .text (String.ofList ('"' :: s ++ ['"']))

/-- The texts that follow the last of some ascending texts. -/
def ascendingTexts (count : Nat) (existing : List (List Char)) : Batch :=
  .ofAscending ((ascendingStrings count (existing.getLast?.getD [])).map textKey)

/-- Where a descending batch starts, and the existing texts that its walk can meet. Without a text
that can be lowered it starts above the first one. -/
def descentFrom (first : List Char) (existing : List (List Char)) (duplicates : Bool) :
    List Char × List (List Char) :=
  match existing.findIdx? isEndless with
  | some i => (existing[i]?.getD [], if duplicates then [] else existing.take i)
  | none =>
    if duplicates then (first, [])
    else
      let start := first ++ ['B']
      (start, existing.takeWhile fun s => decide (s < start))

/-- The texts before the first of some ascending texts that can be lowered. -/
def descendingTexts (count : Nat) (existing : List (List Char)) (duplicates : Bool) : Batch :=
  match existing with
  | [] =>
    let start := (ascendingStrings count ['a']).getLast?.getD []
    .ofDescending ((descendingStrings count start).map textKey)
  | first :: _ =>
    let (start, collisions) := descentFrom first existing duplicates
    let strings := (descendingStrings (count + collisions.length) start).filter
      (!collisions.contains ·)
    .ofDescending ((strings.take count).map textKey)

/-! ## Drawing -/

/-- A power of 52 with a natural exponent, by squaring. The fuel bounds the binary digits. -/
def powerLoop : Nat → Nat → Float → Float → Float
  | 0, _, m, _ => m
  | fuel + 1, n, m, a =>
    let m := if n % 2 = 1 then m * a else m
    if n / 2 = 0 then m else powerLoop fuel (n / 2) m (a * a)

/-- The weight of a length that is shorter than the longest one by a given difference. -/
def lengthWeight (difference : Nat) : Float :=
  if difference = 0 then 1 else 1 / powerLoop (difference + 1) difference 1 52

/-- The sums of the weights of the lengths up to a longest one, the total included. -/
def weightSums (longest : Nat) : List Float :=
  ((List.range longest).foldl (fun (sums, sum) i =>
    let next := sum + lengthWeight (longest - (i + 1))
    (next :: sums, next)) ([], (0 : Float))).1.reverse

/-- Draw a length: one more than the number of partial sums that do not exceed a random share of
the total. -/
def drawLength (sums : List Float) (supply : Supply) : Nat × Supply :=
  let (share, supply) := supply.unit
  let x := share * sums.getLast?.getD 0
  ((sums.dropLast.takeWhile (· ≤ x)).length + 1, supply)

/-- Draw letters, in front of none. -/
def drawLetters : Nat → Supply → List Char × Supply
  | 0, supply => ([], supply)
  | n + 1, supply =>
    let (i, supply) := supply.below 64 alphabet.length
    let (rest, supply) := drawLetters n supply
    (alphabet[i]?.getD 'A' :: rest, supply)

/-- Draw strings until enough are found behind those that are known, last one first. Without
duplicates a drawn string that is taken is drawn again. Nothing is given when the supply runs
dry. -/
def drawStrings (sums : List Float) (duplicates : Bool) :
    Nat → Nat → Std.HashSet String → List (List Char) → Supply → Option (List (List Char))
  | _, 0, _, known, _ => some known.reverse
  | 0, _ + 1, _, _, _ => none
  | fuel + 1, missing + 1, taken, known, supply =>
    if supply.left = 0 then none
    else
      let (length, supply) := drawLength sums supply
      let (candidate, supply) := drawLetters length supply
      if duplicates || !taken.contains (String.ofList candidate) then
        drawStrings sums duplicates fuel missing (taken.insert (String.ofList candidate))
          (candidate :: known) supply
      else drawStrings sums duplicates fuel (missing + 1) taken known supply

/-- Draw texts next to some existing ones. -/
def randomTexts (count : Nat) (existing : List (List Char)) (duplicates : Bool)
    (supply : Supply) : Except Error Batch :=
  let longest := max (requiredLength (2 * (count + existing.length)))
    ((existing.map List.length).max?.getD 0)
  let taken := Std.HashSet.ofList (existing.map String.ofList)
  match drawStrings (weightSums longest) duplicates (supply.left + 1) count taken [] supply with
  | none => .error (.invalidGeneration .exhausted)
  | some drawn => .ok ⟨drawn.map textKey, textKey ['A'], textKey (List.replicate longest 'z')⟩

end TracedTree.Batch
