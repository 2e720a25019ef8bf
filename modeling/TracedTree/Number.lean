/-!
# Finite binary64 numbers

A number is a sign and a place. The place is the index of its magnitude in the increasing
list of all finite binary64 magnitudes, which is also the content of the low 63 bits of its
encoding. Magnitudes are counted in units of `2 ^ -1074`, the smallest positive magnitude,
so that every number is a whole count of units and arithmetic is exact until it is rounded.

A quotient of two counts is rounded by `nearestPlace`: to the closest magnitude, and from
halfway to the one of even place.
-/

namespace TracedTree

/-- A finite binary64 number. -/
structure Number where
  /-- Whether the sign bit is set; zero has both signs. -/
  negative : Bool
  /-- The index of the magnitude among all finite magnitudes. -/
  place : Nat
  place_lt : place < 2047 * Nat.pow 2 52
deriving DecidableEq, Repr

/-- A quotient rounded to the nearest integer, from halfway to the even one. -/
def roundHalfEven (num den : Nat) : Nat :=
  let floor := num / den
  let rest := num % den
  if den < 2 * rest ∨ (2 * rest = den ∧ floor % 2 = 1) then floor + 1 else floor

namespace Number

/-- The number of units in one. -/
def one : Nat := Nat.pow 2 1074

/-- The magnitude at a place, in units. Up to `2 ^ 53` places and units agree; from there on
each further `2 ^ 52` places double the distance between neighbours. -/
def unitsAt (place : Nat) : Nat :=
  if place < Nat.pow 2 52 then place
  else (Nat.pow 2 52 + place % Nat.pow 2 52) * Nat.pow 2 (place / Nat.pow 2 52 - 1)

/-- The place nearest to `num / den` units. It may lie past the finite ones. -/
def nearestPlace (num den : Nat) : Nat :=
  let scale := (num / den).log2 - 52
  scale * Nat.pow 2 52 + roundHalfEven num (den * Nat.pow 2 scale)

/-- The number at a place, or nothing past the finite ones. -/
def atPlace? (negative : Bool) (place : Nat) : Option Number :=
  if h : place < 2047 * Nat.pow 2 52 then some ⟨negative, place, h⟩ else none

/-- The number at a place, or the one of largest magnitude past the finite ones. -/
def atPlace (negative : Bool) (place : Nat) : Number :=
  ⟨negative, min place (2047 * Nat.pow 2 52 - 1),
    Nat.lt_of_le_of_lt (Nat.min_le_right ..) (by decide)⟩

/-- The magnitude in units. -/
def magnitude (x : Number) : Nat := unitsAt x.place

/-- The signed value in units. -/
def units (x : Number) : Int :=
  if x.negative then -(x.magnitude : Int) else x.magnitude

/-- The position in the numeric order. Both zeros have position zero. -/
def rank (x : Number) : Int :=
  if x.negative then -(x.place : Int) else x.place

/-- Zero without a sign. -/
def zero : Number := ⟨false, 0, by decide⟩

/-- Zero of either sign. -/
def isZero (x : Number) : Bool := x.place == 0

/-- The number nearest to a signed count of units. -/
def ofUnits (u : Int) : Number :=
  atPlace (u < 0) (nearestPlace u.natAbs 1)

/-- The number nearest to an integer. -/
def ofInt (i : Int) : Number := ofUnits (i * one)

/-- The sum, rounded. -/
def add (x y : Number) : Number := ofUnits (x.units + y.units)

/-- The quotient of two natural numbers, each rounded before and the result rounded after. -/
def ofFraction (num den : Nat) : Number :=
  atPlace false (nearestPlace ((ofInt num).magnitude * one) (ofInt den).magnitude)

/-- The largest integer that is not above the number. -/
def floor (x : Number) : Int := x.units / one

/-- The smallest integer that is not below the number. -/
def ceil (x : Number) : Int := -(-x.units / one)

/-- The integer part, toward zero. -/
def truncate (x : Number) : Int := x.units.tdiv one

/-- The number is an integer. -/
def isWhole (x : Number) : Bool := x.magnitude % one == 0

/-- The encoding: the sign bit above the place. -/
def toBits (x : Number) : UInt64 :=
  (if x.negative then 0x8000000000000000 else 0) ||| UInt64.ofNat x.place

/-- The finite number with a given encoding, or nothing for an infinity or a NaN. -/
def ofBits? (bits : UInt64) : Option Number :=
  atPlace? (bits ≥ 0x8000000000000000) (bits &&& 0x7fffffffffffffff).toNat

/-- The number as a machine float. -/
def toFloat (x : Number) : Float := Float.ofBits x.toBits

/-- The finite value of a machine float. -/
def ofFloat? (f : Float) : Option Number := ofBits? f.toBits

end Number

end TracedTree
