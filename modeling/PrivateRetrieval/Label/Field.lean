/-
# Arithmetic of the block cipher's bytes

The block cipher reads a byte as a polynomial over the field of two elements, modulo
`x ^ 8 + x ^ 4 + x ^ 3 + x + 1`. Addition is exclusive or. The substitution of bytes inverts in
this field and then applies an affine map, and both are computed here from their definitions
instead of being listed.
-/

namespace PrivateRetrieval.ByteField

/-- Multiplication by `x`: a shift, reduced if it leaves the byte. -/
def double (byte : UInt8) : UInt8 :=
  if byte &&& 0x80 = 0 then byte <<< 1 else (byte <<< 1) ^^^ 0x1b

/-- The product of two bytes, by doubling the first once for each bit of the second. -/
def multiply (left right : UInt8) : UInt8 :=
  let rec accumulate : Nat → UInt8 → UInt8 → UInt8 → UInt8
    | 0, _, _, sum => sum
    | bits + 1, factor, remaining, sum =>
        let sum' := if remaining &&& 1 = 1 then sum ^^^ factor else sum
        accumulate bits (double factor) (remaining >>> 1) sum'
  accumulate 8 left right 0

/-- The power of a byte whose exponent has so many binary digits, all of them one. -/
def powerOfOnes (byte : UInt8) : Nat → UInt8
  | 0 => 1
  | digits + 1 =>
      let shorter := powerOfOnes byte digits
      multiply byte (multiply shorter shorter)

/-- The multiplicative inverse. The 255 nonzero bytes form a group, so the inverse is the power
254, which is the square of the power 127, and zero is sent to zero. -/
def inverse (byte : UInt8) : UInt8 :=
  let root := powerOfOnes byte 7
  multiply root root

/-- The bits of a byte moved up by some places, the topmost ones returning at the bottom. -/
def rotate (byte : UInt8) (places : UInt8) : UInt8 :=
  (byte <<< places) ||| (byte >>> (8 - places))

/-- The substitution of the block cipher: invert, then apply an affine map. -/
def substitute (byte : UInt8) : UInt8 :=
  let inverted := inverse byte
  inverted ^^^ rotate inverted 1 ^^^ rotate inverted 2 ^^^ rotate inverted 3
    ^^^ rotate inverted 4 ^^^ 0x63

end PrivateRetrieval.ByteField
