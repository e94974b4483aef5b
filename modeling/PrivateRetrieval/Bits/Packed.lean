/-
# Bits and bytes

A sequence of bits is stored in bytes, the least significant bit of each byte first, and the last
byte is filled up with zeros. The same convention serves bitmaps, bit streams and numbers: the
first bit of a number is its least significant one.
-/

import PrivateRetrieval.Failure

namespace PrivateRetrieval.Bits

/-- The number whose binary digits, least significant first, are the given bits. -/
def value : List Bool → Nat
  | [] => 0
  | bit :: rest => bit.toNat + 2 * value rest

/-- The lowest binary digits of a number, least significant first. -/
def digits : Nat → Nat → List Bool
  | 0, _ => []
  | width + 1, number => (number % 2 == 1) :: digits width (number / 2)

/-- The bits of a list of bytes. -/
def unpack (bytes : List UInt8) : List Bool :=
  bytes.flatMap fun byte => digits 8 byte.toNat

/-- How many bytes hold a number of bits. -/
def byteCount (bits : Nat) : Nat := (bits + 7) / 8

/-- So many bytes filled with the bits of a list, and with zeros after its end. -/
def packInto : Nat → List Bool → List UInt8
  | 0, _ => []
  | count + 1, bits => UInt8.ofNat (value (bits.take 8)) :: packInto count (bits.drop 8)

/-- The bytes that hold a list of bits, the last one filled up with zeros. -/
def pack (bits : List Bool) : List UInt8 := packInto (byteCount bits.length) bits

/-- The bit of a bitmap at an index. -/
def bitAt (bitmap : Array UInt8) (index : Nat) : Outcome Bool :=
  if inside : index / 8 < bitmap.size then .ok (bitmap[index / 8].toNat.testBit (index % 8))
  else .error (.breach .bitOutOfRange)

/-- A bitmap with the bit at an index set. -/
def setBit (bitmap : Array UInt8) (index : Nat) : Outcome (Array UInt8) :=
  if inside : index / 8 < bitmap.size then
    .ok (bitmap.set (index / 8) (bitmap[index / 8] ||| UInt8.ofNat (1 <<< (index % 8))))
  else .error (.breach .bitOutOfRange)

@[simp]
theorem length_digits (width number : Nat) : (digits width number).length = width := by
  induction width generalizing number with
  | zero => rfl
  | succ width ih => simp [digits, ih]

theorem digits_value (bits : List Bool) : digits bits.length (value bits) = bits := by
  induction bits with
  | nil => rfl
  | cons bit rest ih =>
      cases bit <;> simp [digits, value, Nat.add_mul_div_left, ih, Nat.add_mul_mod_self_left]

end PrivateRetrieval.Bits
