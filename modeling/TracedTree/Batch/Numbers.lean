import Std.Data.HashSet
import TracedTree.Batch

/-!
# Batches of numbers

Ascending batches count up from the largest existing number, descending ones count down from the
smallest. Random batches draw integers from a range that has room for them; the bounds of the
range are computed in 64-bit integers, and existing numbers from which this is not possible are
refused.
-/

namespace TracedTree.Batch

/-- Count up from the largest of some ascending numbers. -/
def ascendingNumbers (count : Nat) (existing : List Number) : Batch :=
  let largest := existing.getLast?.elim 0 Number.floor
  .ofAscending ((List.range count).map fun i => .ofInt (largest + (i + 1 : Nat)))

/-- Count down from the smallest of some ascending numbers, or to one if there are none. -/
def descendingNumbers (count : Nat) (existing : List Number) : Batch :=
  let smallest := existing.head?.elim ((count : Int) + 1) Number.ceil
  .ofDescending ((List.range count).map fun i => .ofInt (smallest - (i + 1 : Nat)))

/-! ## The range of a random batch -/

/-- The largest and the smallest 64-bit integer. -/
def maxInteger : Int := 0x7fffffffffffffff

/-- An integer that fits into 64 bits. -/
def integer? (i : Int) : Option Int :=
  if -maxInteger - 1 ≤ i ∧ i ≤ maxInteger then some i else none

/-- An integer that leaves some room in 64 bits. -/
def roomy? (i : Int) : Option Int := if i.natAbs < 9000000000000000000 then some i else none

/-- The largest number with as many decimal digits. -/
def liftCeiling (i : Int) : Int :=
  min (Int.ofNat (Nat.pow 10 (Nat.toDigits 10 i.natAbs).length)) maxInteger - 1

/-- The magnitude of a number, rounded down. -/
def wholeMagnitude (x : Number) : Int := (x.magnitude / Number.one : Nat)

/-- A number rounded away from zero. -/
def outward (x : Number) : Int := if x.negative then x.floor else x.ceil

/-- The bounds between which random numbers are drawn, given how many are wanted and the existing
ones. With several existing numbers their span is widened until at least half of it is free. -/
def randomRange? (count : Nat) (existing : List Number) (duplicates : Bool) :
    Option (Int × Int) := do
  let count ← integer? count
  let spread := if duplicates then 1 else 2
  match existing with
  | [] => return (1, liftCeiling (← integer? (count * spread)))
  | [only] =>
    let magnitude ← roomy? (wholeMagnitude only)
    let ceiling := liftCeiling (← integer? (magnitude + (← integer? (count * spread))))
    if only.rank < 0 then
      return (-ceiling, -(← roomy? (wholeMagnitude (only.add (.ofInt (-1))))))
    else return (← roomy? (wholeMagnitude (only.add (.ofInt 1))), ceiling)
  | first :: second :: rest =>
    let floor ← roomy? (outward first)
    let ceiling ← roomy? (outward ((second :: rest).getLast?.getD second))
    let wanted ← integer? ((← integer? (count + existing.length)) * 2)
    let width ← integer? ((← integer? (ceiling - floor)) + 1)
    let missing ← integer? (wanted - width)
    if 0 < missing ∧ !duplicates then
      let half := (missing + 1) / 2
      return (← integer? (floor - half), ← integer? (ceiling + half))
    else return (floor, ceiling)

/-! ## Drawing -/

/-- The integers among some numbers, held within 64 bits. -/
def integers (existing : List Number) : List Int :=
  (existing.filter (·.isWhole)).map fun x => max (-maxInteger - 1) (min x.truncate maxInteger)

/-- The existing integers that a draw between two bounds can meet. -/
def takenBetween (existing : List Number) (low high : Int) : Std.HashSet Int :=
  .ofList ((integers existing).filter fun i => low ≤ i && i ≤ high)

/-- Draw integers between two bounds until enough are found behind those that are known, last one
first. Without duplicates a drawn integer that is taken is drawn again. Nothing is given when
the supply runs dry. -/
def drawIntegers (low : Int) (width : Nat) (duplicates : Bool) :
    Nat → Nat → Std.HashSet Int → List Int → Supply → Option (List Int)
  | _, 0, _, known, _ => some known.reverse
  | 0, _ + 1, _, _, _ => none
  | fuel + 1, missing + 1, taken, known, supply =>
    if supply.left = 0 then none
    else
      let (offset, rest) := supply.below 64 width
      let candidate := low + offset
      if duplicates || !taken.contains candidate then
        drawIntegers low width duplicates fuel missing (taken.insert candidate)
          (candidate :: known) rest
      else drawIntegers low width duplicates fuel (missing + 1) taken known rest

/-- Draw numbers that fit next to some ascending numbers. -/
def randomNumbers (count : Nat) (existing : List Number) (duplicates : Bool)
    (supply : Supply) : Except Error Batch :=
  match randomRange? count existing duplicates with
  | none => .error (.invalidGeneration .keysTooLarge)
  | some (low, high) =>
    let taken := takenBetween existing low high
    let width := (high - low + 1).toNat
    let free := width - taken.size
    if high < low then .error (.invalidGeneration (.emptyRange low high))
    else if !duplicates && free < count then
      .error (.invalidGeneration (.tooFewFree free low high))
    else match drawIntegers low width duplicates (supply.left + 1) count taken [] supply with
      | none => .error (.invalidGeneration .exhausted)
      | some drawn => .ok ⟨drawn.map .ofInt, .ofInt low, .ofInt high⟩

end TracedTree.Batch
