/-
# The block cipher on labels

AES with a key of 128 bits, used as a fixed random permutation of labels. A block is held as four
columns of 32 bits, least significant byte first, so a label and a block are the same bytes read
in two widths. Substitution and column mixing of a byte are looked up together in one table, whose
entries are computed from the arithmetic of bytes.

On top of the permutation stand the two functions that the rest of the library uses: `compress`,
which adds the input to its encryption and so cannot be inverted, and `derive`, which turns a key
into a sequence of labels indexed by a tag and a counter.
-/

import PrivateRetrieval.Label.Basic
import PrivateRetrieval.Label.Field

namespace PrivateRetrieval

/-- Four columns of the cipher's state, or of a round key. -/
structure Block where
  first : UInt32
  second : UInt32
  third : UInt32
  fourth : UInt32
  deriving DecidableEq, Repr, Inhabited

namespace Block

/-- A label read as four columns. -/
def ofLabel (label : Label) : Block :=
  ⟨label.low.toUInt32, (label.low >>> 32).toUInt32,
    label.high.toUInt32, (label.high >>> 32).toUInt32⟩

/-- The label with the same bytes. -/
def toLabel (block : Block) : Label :=
  ⟨block.first.toUInt64 ||| (block.second.toUInt64 <<< 32),
    block.third.toUInt64 ||| (block.fourth.toUInt64 <<< 32)⟩

/-- Blocks are combined bit by bit. -/
instance : XorOp Block where
  xor left right :=
    ⟨left.first ^^^ right.first, left.second ^^^ right.second,
      left.third ^^^ right.third, left.fourth ^^^ right.fourth⟩

/-- The substitution of every byte. -/
def substitutionTable : Vector UInt8 256 :=
  ⟨((List.range 256).map fun index => ByteField.substitute (UInt8.ofNat index)).toArray, by simp⟩

/-- The column that a substituted byte contributes when it stands in the topmost row: the byte is
multiplied by 2, 1, 1 and 3. -/
def mixedColumn (byte : UInt8) : UInt32 :=
  let image := ByteField.substitute byte
  let doubled := ByteField.double image
  doubled.toUInt32 ||| (image.toUInt32 <<< 8) ||| (image.toUInt32 <<< 16)
    ||| ((doubled ^^^ image).toUInt32 <<< 24)

/-- The contributed column of every byte. -/
def mixingTable : Vector UInt32 256 :=
  ⟨((List.range 256).map fun index => mixedColumn (UInt8.ofNat index)).toArray, by simp⟩

/-- The byte of a column in a row, counted from the least significant one. -/
@[inline]
def byteAt (column : UInt32) (row : UInt32) : UInt8 := (column >>> (8 * row)).toUInt8

/-- The substitution of a byte, by table. -/
@[inline]
def substituted (byte : UInt8) : UInt32 := (substitutionTable.get byte.toFin).toUInt32

/-- The contribution of a byte in a given row: the column of the topmost row, turned downwards. -/
@[inline]
def mixed (byte : UInt8) (row : UInt32) : UInt32 :=
  let column := mixingTable.get byte.toFin
  if row = 0 then column else (column <<< (8 * row)) ||| (column >>> (32 - 8 * row))

/-- One column of a full round. Its four bytes come from four columns, since the round first
shifts every row by its number. -/
@[inline]
def roundColumn (top second third bottom : UInt32) : UInt32 :=
  mixed (byteAt top 0) 0 ^^^ mixed (byteAt second 1) 1 ^^^ mixed (byteAt third 2) 2
    ^^^ mixed (byteAt bottom 3) 3

/-- One column of the last round, which does not mix. -/
@[inline]
def lastColumn (top second third bottom : UInt32) : UInt32 :=
  substituted (byteAt top 0) ||| (substituted (byteAt second 1) <<< 8)
    ||| (substituted (byteAt third 2) <<< 16) ||| (substituted (byteAt bottom 3) <<< 24)

/-- A full round under a round key. -/
def round (state key : Block) : Block :=
  let ⟨a, b, c, d⟩ := state
  ⟨roundColumn a b c d ^^^ key.first, roundColumn b c d a ^^^ key.second,
    roundColumn c d a b ^^^ key.third, roundColumn d a b c ^^^ key.fourth⟩

/-- The last round under its round key. -/
def lastRound (state key : Block) : Block :=
  let ⟨a, b, c, d⟩ := state
  ⟨lastColumn a b c d ^^^ key.first, lastColumn b c d a ^^^ key.second,
    lastColumn c d a b ^^^ key.third, lastColumn d a b c ^^^ key.fourth⟩

/-- The round key that follows another one. The last column is turned by one byte, substituted and
marked with the round's constant; each new column adds the one before it. -/
def nextKey (constant : UInt8) (key : Block) : Block :=
  let column := key.fourth
  let turned := substituted (byteAt column 1) ||| (substituted (byteAt column 2) <<< 8)
    ||| (substituted (byteAt column 3) <<< 16) ||| (substituted (byteAt column 0) <<< 24)
  let first := key.first ^^^ turned ^^^ constant.toUInt32
  let second := key.second ^^^ first
  let third := key.third ^^^ second
  ⟨first, second, third, key.fourth ^^^ third⟩

/-- The given number of round keys from a key on, the key itself included. The constants of the
rounds are successive powers of `x`. -/
def keySchedule : Nat → UInt8 → Block → List Block
  | 0, _, _ => []
  | count + 1, constant, key =>
      key :: keySchedule count (ByteField.double constant) (nextKey constant key)

end Block

/-- An expanded key: the key added before the first round, those of the nine full rounds, and that
of the last round. -/
structure Cipher where
  whitening : Block
  full : List Block
  last : Block
  deriving DecidableEq, Repr, Inhabited

namespace Cipher

/-- The cipher under a key. -/
def ofKey (key : Label) : Cipher :=
  let schedule := Block.keySchedule 11 1 (Block.ofLabel key)
  ⟨schedule.headD default, (schedule.drop 1).take 9, schedule.getLastD default⟩

/-- The encryption of a label. -/
def encrypt (cipher : Cipher) (label : Label) : Label :=
  let state := cipher.full.foldl Block.round (Block.ofLabel label ^^^ cipher.whitening)
  (Block.lastRound state cipher.last).toLabel

/-- The encryption of a label with the label added, a function that cannot be inverted. -/
def compress (cipher : Cipher) (label : Label) : Label :=
  cipher.encrypt label ^^^ label

/-- The block that holds a tag in its first byte and a counter in the four bytes after it. -/
def taggedBlock (tag : UInt8) (counter : UInt32) : Label :=
  ⟨tag.toUInt64 ||| (counter.toUInt64 <<< 8), 0⟩

/-- A pseudorandom label for every tag and counter. -/
def derive (cipher : Cipher) (tag : UInt8) (counter : UInt32) : Label :=
  cipher.encrypt (taggedBlock tag counter)

end Cipher

end PrivateRetrieval
