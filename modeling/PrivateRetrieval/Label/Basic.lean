/-
# Labels

A label is a block of sixteen bytes: a seed, a node of a tree, a key or the output of the block
cipher. The library reads it as two words of 64 bits, least significant byte first, because the
element of a leaf is computed from these words. The list of bytes is the form in which a label
travels, and the two forms determine each other.
-/

namespace PrivateRetrieval

/-- The bytes of a word, least significant first. -/
def wordBytes (word : UInt64) : List UInt8 :=
  (List.range 8).map fun place => (word >>> (8 * place).toUInt64).toUInt8

/-- The word whose bytes, least significant first, begin with the given ones. Bytes beyond the
eighth fall outside the word. -/
def wordOfBytes : List UInt8 → UInt64
  | [] => 0
  | byte :: rest => byte.toUInt64 ||| (wordOfBytes rest <<< 8)

/-- Sixteen bytes, as two words. The low word holds the first eight bytes. -/
structure Label where
  low : UInt64
  high : UInt64
  deriving DecidableEq, Repr, Inhabited

namespace Label

/-- The label of sixteen zero bytes. -/
def zero : Label := ⟨0, 0⟩

/-- How many bytes a label has. -/
def byteCount : Nat := 16

/-- The sixteen bytes in order. -/
def toBytes (label : Label) : List UInt8 :=
  wordBytes label.low ++ wordBytes label.high

/-- The label of a list of sixteen bytes. Lists of another length are no labels. -/
def ofBytes? (bytes : List UInt8) : Option Label :=
  if bytes.length = byteCount then some ⟨wordOfBytes (bytes.take 8), wordOfBytes (bytes.drop 8)⟩
  else none

/-- Labels are combined bit by bit. -/
instance : XorOp Label where
  xor left right := ⟨left.low ^^^ right.low, left.high ^^^ right.high⟩

/-- The least significant bit of the first byte, which a tree of shares uses as control bit. -/
def lowestBit (label : Label) : Bool := label.low &&& 1 == 1

/-- The label with its least significant bit cleared. -/
def clearLowestBit (label : Label) : Label :=
  { label with low := label.low &&& 0xfffffffffffffffe }

/-- The label with a byte folded into its first byte, which tells siblings apart. -/
def mark (label : Label) (byte : UInt8) : Label :=
  { label with low := label.low ^^^ byte.toUInt64 }

/-- The first four bytes as a number. -/
def lowHalfWord (label : Label) : UInt32 := label.low.toUInt32

/-- One of two labels, the second if the choice is set. -/
def select (first second : Label) (choice : Bool) : Label :=
  if choice then second else first

/-- The label if the control bit is set, and zero otherwise. -/
def masked (label : Label) (control : Bool) : Label := select zero label control

@[simp]
theorem xor_low (left right : Label) : (left ^^^ right).low = left.low ^^^ right.low := rfl

@[simp]
theorem xor_high (left right : Label) : (left ^^^ right).high = left.high ^^^ right.high := rfl

@[ext]
theorem ext {left right : Label} (low : left.low = right.low) (high : left.high = right.high) :
    left = right := by
  cases left; cases right; simp_all

theorem xor_comm (left right : Label) : left ^^^ right = right ^^^ left := by
  ext <;> simp [UInt64.xor_comm]

theorem xor_assoc (first second third : Label) :
    first ^^^ second ^^^ third = first ^^^ (second ^^^ third) := by
  ext <;> simp [UInt64.xor_assoc]

@[simp]
theorem xor_self (label : Label) : label ^^^ label = zero := by
  ext <;> simp [zero]

@[simp]
theorem xor_zero (label : Label) : label ^^^ zero = label := by
  ext <;> simp [zero]

@[simp]
theorem masked_true (label : Label) : label.masked true = label := rfl

@[simp]
theorem masked_false (label : Label) : label.masked false = zero := rfl

end Label

end PrivateRetrieval
