import TracedTree.Number

/-!
# Decimal numerals

A decimal numeral is a sign, a natural number of digits and a power of ten. This module reads
numerals from text and rounds them to finite numbers. The text form is an optional sign, digits
with at most one point among them, and an optional exponent; at least one digit stands before
the exponent and at least one in it.
-/

namespace TracedTree

/-- The value `digits * 10 ^ exponent` with a sign. -/
structure Decimal where
  negative : Bool
  digits : Nat
  exponent : Int
deriving DecidableEq, Repr

namespace Decimal

/-- A leading sign and the text behind it; no sign counts as plus. -/
def splitSign : List Char → Bool × List Char
  | '+' :: rest => (false, rest)
  | '-' :: rest => (true, rest)
  | text => (false, text)

/-- The value of a run of ASCII digits. -/
def digitsValue (text : List Char) : Nat := Nat.ofDigitChars 10 text 0

/-- The exponent that ends a numeral: nothing, or a letter `e`, a sign and digits. -/
def readExponent? : List Char → Option Int
  | [] => some 0
  | c :: rest =>
    if c = 'e' ∨ c = 'E' then
      match splitSign rest with
      | (_, []) => none
      | (minus, digits) =>
        if digits.all Char.isDigit then
          some (if minus then -(digitsValue digits : Int) else digitsValue digits)
        else none
    else none

/-- The digits behind a point, and what follows them. -/
def splitFraction : List Char → List Char × List Char
  | '.' :: rest => (rest.takeWhile Char.isDigit, rest.dropWhile Char.isDigit)
  | rest => ([], rest)

/-- Read a numeral that is the whole text. -/
def read? (text : List Char) : Option Decimal :=
  let (minus, body) := splitSign text
  let whole := body.takeWhile Char.isDigit
  let (fraction, rest) := splitFraction (body.dropWhile Char.isDigit)
  if whole.isEmpty && fraction.isEmpty then none
  else (readExponent? rest).map fun e =>
    ⟨minus, digitsValue (whole ++ fraction), e - fraction.length⟩

/-- The finite number nearest to a numeral, or nothing when it rounds to infinity. An exponent
far outside the range of finite numbers is settled before any power of ten is taken. -/
def toNumber? (d : Decimal) : Option Number :=
  if d.digits = 0 then Number.atPlace? d.negative 0
  else if 310 < d.exponent then none
  else if d.exponent + d.digits.log2 + 1 < -330 then Number.atPlace? d.negative 0
  else
    Number.atPlace? d.negative <|
      Number.nearestPlace (d.digits * Nat.pow 10 d.exponent.toNat * Number.one)
        (Nat.pow 10 (-d.exponent).toNat)

end Decimal

/-- The finite number written by a text. -/
def Number.read? (text : List Char) : Option Number := do
  let d ← Decimal.read? text
  d.toNumber?

end TracedTree
