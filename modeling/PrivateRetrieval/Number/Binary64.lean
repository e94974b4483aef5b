/-
# Rounding to binary64

Sizes of tables and sets are derived from square roots and quotients in binary64 arithmetic, and
the servers and the client must arrive at the same sizes, so the roundings are part of the
protocol. They are computed here exactly: a binary64 number in the range that sizes can reach is
an integer of at most 53 bits times a power of two, and each operation rounds its exact result
to the nearest such number, a tie going to the even integer. Values are rationals, so a
statement about a rounded number is a statement about an ordinary number. Overflow and underflow
do not arise for sizes of at most 64 bits and are not modelled.
-/

namespace PrivateRetrieval.Binary64

/-- How many significant bits a binary64 number has. -/
def precision : Int := 53

/-- The integer nearest to `numerator / denominator`, the even one in a tie. -/
def roundedQuotient (numerator denominator : Nat) : Nat :=
  let quotient := numerator / denominator
  let doubledRest := 2 * (numerator % denominator)
  if doubledRest < denominator ∨ (doubledRest = denominator ∧ quotient % 2 = 0) then quotient
  else quotient + 1

/-- The integer nearest to the square root of `numerator / denominator`, the even one in a tie.
The midpoint above `root` is `(2 * root + 1) / 2`, whose square is compared without dividing. -/
def roundedRoot (numerator denominator : Nat) : Nat :=
  let root := Nat.sqrt (numerator / denominator)
  let midpoint := denominator * (2 * root + 1) * (2 * root + 1)
  if 4 * numerator < midpoint ∨ (4 * numerator = midpoint ∧ root % 2 = 0) then root
  else root + 1

/-- The power `2 ^ exponent` as a numerator and a denominator, one of which is 1. -/
def scale (exponent : Int) : Nat × Nat :=
  if 0 ≤ exponent then (1 <<< exponent.toNat, 1) else (1, 1 <<< (-exponent).toNat)

/-- `mantissa * 2 ^ exponent`. -/
def dyadic (mantissa : Nat) (exponent : Int) : Rat :=
  let (up, down) := scale exponent
  mkRat (mantissa * up : Nat) down

/-- The exponent of the last significant bit of a binary64 number near `numerator / denominator`,
both positive. -/
def lastPlace (numerator denominator : Nat) : Int :=
  let guess : Int := (Nat.log2 numerator : Int) - Nat.log2 denominator
  let (up, down) := scale guess
  let exponent := if denominator * up ≤ numerator * down then guess else guess - 1
  exponent + 1 - precision

/-- The binary64 number nearest to the quotient of two natural numbers. -/
def nearestQuotient (numerator denominator : Nat) : Rat :=
  if numerator = 0 ∨ denominator = 0 then 0
  else
    let place := lastPlace numerator denominator
    let (up, down) := scale place
    dyadic (roundedQuotient (numerator * down) (denominator * up)) place

/-- The binary64 number nearest to a rational number. -/
def nearest (value : Rat) : Rat :=
  let magnitude := nearestQuotient value.num.natAbs value.den
  if value.num < 0 then -magnitude else magnitude

/-- The binary64 number nearest to a natural number, which is again a natural number. -/
def ofNat (number : Nat) : Nat :=
  let unit := 1 <<< (Nat.log2 number + 1 - precision.toNat)
  roundedQuotient number unit * unit

/-- The binary64 number nearest to the square root of a natural number. -/
def sqrt (number : Nat) : Rat :=
  if number = 0 then 0
  else
    let place : Int := (Nat.log2 number / 2 : Nat) + 1 - precision
    let (up, down) := scale (2 * place)
    dyadic (roundedRoot (number * down) up) place

/-- The integer nearest to a rational number that is not negative, the larger one in a tie. -/
def roundHalfUp (value : Rat) : Nat :=
  (value + mkRat 1 2).floor.toNat

end PrivateRetrieval.Binary64
