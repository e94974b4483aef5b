/-
# Decimal numerals

A configuration gives a ratio as a decimal numeral. Reading it takes two roundings: the digits are
rounded as one whole number, and the quotient of the result by the power of ten that the point
stands for is rounded again. A numeral whose digits and power of ten are binary64 numbers is
therefore read as the nearest binary64 number. A longer one may be read as a neighbour of it:
`3.9999999999999996` is read as 4.

Digits are read as long as they fit a word of 64 bits, and a longer numeral is cut off there.
-/

import PrivateRetrieval.Number.Binary64

namespace PrivateRetrieval

/-- A decimal numeral. -/
structure Decimal where
  negative : Bool
  /-- All digits, read as one whole number. -/
  digits : Nat
  /-- How many of the digits stand after the point. -/
  places : Nat
  deriving DecidableEq, Repr

namespace Decimal

/-- Whether a word holds the digits of a numeral without so many at the end. -/
def fitsWithout (numeral : Decimal) (count : Nat) : Bool :=
  numeral.digits / Nat.pow 10 count < UInt64.size

/-- How many digits at the end are not read: as few as possible. -/
def unread (numeral : Decimal) : Nat :=
  ((List.range (Nat.log2 numeral.digits + 1)).find? numeral.fitsWithout).getD 0

/-- The binary64 number that a numeral without its sign stands for. The point is to the left or to
the right of the last digit that is read, so one of the two powers of ten is 1. -/
def magnitude (numeral : Decimal) : Rat :=
  let unread := numeral.unread
  let whole := Binary64.ofNat (numeral.digits / Nat.pow 10 unread)
  Binary64.nearestQuotient (whole * Binary64.ofNat (Nat.pow 10 (unread - numeral.places)))
    (Binary64.ofNat (Nat.pow 10 (numeral.places - unread)))

/-- The binary64 number that a numeral stands for. -/
def toBinary64 (numeral : Decimal) : Rat :=
  if numeral.negative then -numeral.magnitude else numeral.magnitude

end Decimal

end PrivateRetrieval
