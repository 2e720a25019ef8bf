import TracedTree.Number.Decimal

/-!
# JSON numerals

A JSON numeral is an optional minus sign, digits without superfluous zeros in front, an optional
fraction and an optional exponent. It can be read as a 64-bit word, which admits whole numbers
without sign, fraction and exponent only, or as a finite binary64 number.

Reading as a number is not correctly rounded. The leading digits that fit into a 64-bit word are
rounded once, and scaling by a power of ten rounds again.
-/

namespace TracedTree

/-- The parts of a JSON numeral. -/
structure Numeral where
  negative : Bool
  whole : List Char
  fraction : List Char
  /-- The sign of the exponent and its digits, if there is one. -/
  exponent : Option (Bool × List Char)
  /-- Neither a fraction nor an exponent is written. -/
  isPlain : Bool
deriving DecidableEq, Repr

namespace Numeral

/-- The digits at the front, and the rest; nothing when there are none. -/
def digits? (text : List Char) : Option (List Char × List Char) :=
  match text.takeWhile Char.isDigit with
  | [] => none
  | ds => some (ds, text.dropWhile Char.isDigit)

/-- The digits before the point: a zero alone, or no zero in front. -/
def whole? (text : List Char) : Option (List Char × List Char) := do
  let (ds, rest) ← digits? text
  if ds.head? = some '0' ∧ ds.length ≠ 1 then none else some (ds, rest)

/-- The fraction, if a point follows. -/
def fraction? : List Char → Option (List Char × List Char)
  | '.' :: rest => digits? rest
  | rest => some ([], rest)

/-- The exponent, which has to end the numeral. -/
def exponent? : List Char → Option (Option (Bool × List Char))
  | [] => some none
  | c :: rest =>
    if c = 'e' ∨ c = 'E' then
      match digits? (Decimal.splitSign rest).2 with
      | some (ds, []) => some (some ((Decimal.splitSign rest).1, ds))
      | _ => none
    else none

/-- Take a numeral apart. -/
def ofChars? (text : List Char) : Option Numeral := do
  let negative := text.head? = some '-'
  let (whole, rest) ← whole? (if negative then text.tail else text)
  let (fraction, last) ← fraction? rest
  return ⟨negative, whole, fraction, ← exponent? last, rest.isEmpty⟩

/-- The numeral as a 64-bit word. -/
def word? (n : Numeral) : Option Nat :=
  let value := Decimal.digitsValue n.whole
  if n.negative || !n.isPlain || Nat.pow 2 64 ≤ value then none else some value

/-- Append digits to a significand as long as it fits into a 64-bit word. -/
def takeDigits (significand : Nat) : List Char → Nat × List Char
  | [] => (significand, [])
  | d :: ds =>
    let longer := 10 * significand + (d.toNat - '0'.toNat)
    if longer < Nat.pow 2 64 then takeDigits longer ds else (significand, d :: ds)

/-- A power of ten as a binary64 number. -/
def powerOfTen (k : Nat) : Number := ((Decimal.mk false 1 k).toNumber?).getD .zero

/-- Scale a magnitude by a power of ten. Upward it takes one multiplication, which must not leave
the finite numbers; downward one division, or two for exponents past the largest power of ten. -/
def scale? (negative : Bool) (x : Number) (exponent : Int) : Option Number :=
  let divided (y : Number) (k : Nat) : Number :=
    .atPlace negative (Number.nearestPlace (y.magnitude * Number.one) (powerOfTen k).magnitude)
  let down := (-exponent).toNat
  if x.isZero then some { Number.zero with negative }
  else if 308 < exponent then none
  else if 0 ≤ exponent then
    Number.atPlace? negative <|
      Number.nearestPlace (x.magnitude * (powerOfTen exponent.toNat).magnitude) Number.one
  else if down ≤ 308 then some (divided x down)
  else if down ≤ 616 then some (divided (divided x 308) (down - 308))
  else some { Number.zero with negative }

/-- The numeral as a finite number; nothing if it is too large. -/
def number? (n : Numeral) : Option Number :=
  let (fromWhole, wholeLeft) := takeDigits 0 n.whole
  let (significand, fractionLeft) := takeDigits fromWhole n.fraction
  let shift : Int := wholeLeft.length - (n.fraction.length - fractionLeft.length : Nat)
  let exponent : Int := match n.exponent with
    | none => 0
    | some (minus, ds) => if minus then -(Decimal.digitsValue ds : Int) else Decimal.digitsValue ds
  scale? n.negative (.ofInt significand) (shift + exponent)

end Numeral

end TracedTree
