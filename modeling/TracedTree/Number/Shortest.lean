import TracedTree.Number.Decimal

/-!
# Shortest decimal text

`Number.shortest` chooses, for a finite number, a numeral of fewest digits that reads back as
the number, and among those the nearest one. It tries one digit, two digits and so on; on each
decimal grid only the two neighbours of the value have to be looked at. Two layouts write the
chosen digits: `Number.text` never uses an exponent, and `Number.numeral` always shows a point
or an exponent.
-/

namespace TracedTree

/-- What decides between two numerals of equal length at equal distance from the value. -/
inductive Tie where
  /-- The one of larger magnitude. -/
  | outward
  /-- The one that ends in an even digit. -/
  | even
deriving DecidableEq, Repr

/-- A tie goes to the lower neighbour, whose digits are given. -/
def Tie.keepsLower : Tie → Nat → Bool
  | outward, _ => false
  | even, digits => digits % 2 == 0

namespace Number

/-- The magnitude is at least `10 ^ k`. -/
def reaches (x : Number) (k : Int) : Bool :=
  Nat.pow 10 k.toNat * one ≤ x.magnitude * Nat.pow 10 (-k).toNat

/-- The number of digits before the point; zero or less for a magnitude below one. The binary
logarithm gives it up to one, and a comparison decides. -/
def pointPosition (x : Number) : Int :=
  let k := ((x.magnitude.log2 : Int) - 1074) * 30103 / 100000 + 1
  if x.reaches k then k + 1 else k

/-- The numeral with a given exponent that is nearest among those that read back. -/
def onGrid? (x : Number) (tie : Tie) (exponent : Int) : Option Decimal :=
  let num := x.magnitude * Nat.pow 10 (-exponent).toNat
  let den := one * Nat.pow 10 exponent.toNat
  let lower : Decimal := ⟨x.negative, num / den, exponent⟩
  let upper : Decimal := ⟨x.negative, num / den + 1, exponent⟩
  let twice := 2 * (num % den)
  match lower.toNumber? == some x, upper.toNumber? == some x with
  | false, false => none
  | true, false => some lower
  | false, true => some upper
  | true, true =>
    some (if twice < den ∨ (twice = den ∧ tie.keepsLower lower.digits) then lower else upper)

/-- Every digit of the value. -/
def exactDecimal (x : Number) : Decimal := ⟨x.negative, x.magnitude * Nat.pow 5 1074, -1074⟩

/-- The shortest numeral that reads back, nearest to the value among those of its length. A whole
number up to `2 ^ 53` is its own: other whole numbers are too far away to read back as it. -/
def shortest (x : Number) (tie : Tie) : Decimal :=
  if x.isZero then ⟨x.negative, 0, 0⟩
  else if x.isWhole && x.magnitude ≤ Nat.pow 2 53 * one then ⟨x.negative, x.magnitude / one, 0⟩
  else
    let point := x.pointPosition
    ((List.range 17).findSome? fun (n : Nat) => x.onGrid? tie (point - n - 1)).getD x.exactDecimal

end Number

namespace Decimal

/-- The significant digits, without zeros at the end. -/
def significant (d : Decimal) : List Char :=
  ((Nat.toDigits 10 d.digits).reverse.dropWhile (· == '0')).reverse

/-- The number of digits before the point. -/
def point (d : Decimal) : Int := (Nat.toDigits 10 d.digits).length + d.exponent

/-- Put digits in front of a sign. -/
def signed (negative : Bool) (text : List Char) : List Char :=
  if negative then '-' :: text else text

/-- Digits with the point where it belongs, filled up with zeros and never an exponent. -/
def positional (digits : List Char) (point : Int) : List Char :=
  if point ≤ 0 then
    '0' :: '.' :: List.replicate (-point).toNat '0' ++ digits
  else if digits.length ≤ point.toNat then
    digits ++ List.replicate (point.toNat - digits.length) '0'
  else
    digits.take point.toNat ++ '.' :: digits.drop point.toNat

/-- Digits with a point behind the first one, if there are more, and an exponent, which always
has a sign. -/
def scientific (digits : List Char) (point : Int) : List Char :=
  let exponent := (if point ≤ 0 then '-' else '+') :: Nat.toDigits 10 (point - 1).natAbs
  match digits with
  | [] => []
  | [d] => d :: 'e' :: exponent
  | d :: rest => d :: '.' :: rest ++ 'e' :: exponent

end Decimal

namespace Number

/-- The number in shortest digits without an exponent. A tie goes outward. -/
def text (x : Number) : String :=
  let d := x.shortest .outward
  let body := if x.isZero then ['0'] else Decimal.positional d.significant d.point
  String.ofList (Decimal.signed x.negative body)

/-- The number in shortest digits with a point or an exponent: positional while the point lies
between four zeros behind it and sixteen digits before it. A tie goes to the even digit. -/
def numeral (x : Number) : String :=
  let d := x.shortest .even
  let digits := d.significant
  let body :=
    if x.isZero then ['0', '.', '0']
    else if -5 < d.point ∧ d.point ≤ 16 then
      let plain := Decimal.positional digits d.point
      if digits.length ≤ d.point.toNat then plain ++ ['.', '0'] else plain
    else Decimal.scientific digits d.point
  String.ofList (Decimal.signed x.negative body)

/-- The number with two digits behind the point, a half going to the even neighbour. -/
def textTwoPlaces (x : Number) : String :=
  let hundredths := roundHalfEven (x.magnitude * 100) one
  let rest := Nat.toDigits 10 (hundredths % 100)
  let body := Nat.toDigits 10 (hundredths / 100) ++
    '.' :: List.replicate (2 - rest.length) '0' ++ rest
  String.ofList (Decimal.signed x.negative body)

end Number

end TracedTree
