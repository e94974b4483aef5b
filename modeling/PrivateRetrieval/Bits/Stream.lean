/-
# Bit streams

A reader takes bits off the front of a byte sequence, and a writer adds bits at its end. Both keep
their place in a byte as a mask, a byte with a single bit set, which moves from the least
significant bit up and falls out after the most significant one. A reader then goes on to the next
byte at once, so that its mask always selects the next bit. A writer begins a byte only when there
is a bit for it, so that its mask is zero before the first bit and after every full byte. A number
is read and written least significant bit first, and its width is at most 32.
-/

import PrivateRetrieval.Failure
import PrivateRetrieval.Bits.Packed

namespace PrivateRetrieval.Bits

/-- The widest number that is read or written at once. -/
def widest : Nat := 32

/-- A byte in which a single bit is set. -/
def IsMask (mask : UInt8) : Prop := ∃ place < 8, mask.toNat = 1 <<< place

/-- How many zeros a byte has below its lowest one. A byte that is zero has eight. -/
def trailingZeros (byte : UInt8) : Nat := ((digits 8 byte.toNat).takeWhile (! ·)).length

section Masks

variable {mask : UInt8} {place : Nat}

theorem isMask_one : IsMask 1 := ⟨0, by decide, rfl⟩

/-- A mask that is moved up by one place falls out of the byte, or selects the next place. -/
theorem IsMask.shiftLeft_cases (isMask : IsMask mask) :
    (mask.toNat = 1 <<< 7 ∧ mask <<< 1 = 0) ∨
      ∃ place < 7, mask.toNat = 1 <<< place ∧ (mask <<< 1).toNat = 1 <<< (place + 1) := by
  obtain ⟨place, inside, selects⟩ := isMask
  have moved : (mask <<< 1).toNat = 1 <<< (place + 1) % 256 := by
    rw [UInt8.toNat_shiftLeft, selects, Nat.shiftLeft_add]
    rfl
  rcases Nat.lt_or_eq_of_le (Nat.le_of_lt_succ inside) with below | rfl
  · have stays : 1 <<< (place + 1) < 256 := by
      rw [Nat.one_shiftLeft]
      exact Nat.pow_lt_pow_right Nat.one_lt_two (Nat.succ_lt_succ below)
    exact .inr ⟨place, below, selects, moved.trans (Nat.mod_eq_of_lt stays)⟩
  · exact .inl ⟨selects, UInt8.toNat_inj.mp moved⟩

theorem IsMask.shiftLeft (isMask : IsMask mask) (stays : mask <<< 1 ≠ 0) :
    IsMask (mask <<< 1) := by
  obtain ⟨-, falls⟩ | ⟨place, inside, -, moved⟩ := isMask.shiftLeft_cases
  · exact absurd falls stays
  · exact ⟨place + 1, Nat.succ_lt_succ inside, moved⟩

theorem IsMask.one_lt_shiftLeft (isMask : IsMask mask) (stays : mask <<< 1 ≠ 0) :
    (1 : UInt8) < mask <<< 1 := by
  obtain ⟨-, falls⟩ | ⟨place, -, -, moved⟩ := isMask.shiftLeft_cases
  · exact absurd falls stays
  · rw [UInt8.lt_iff_toNat_lt, moved, Nat.one_shiftLeft]
    exact Nat.one_lt_two_pow (Nat.succ_ne_zero place)

theorem trailingZeros_of_eq (inside : place < 8) (selects : mask.toNat = 1 <<< place) :
    trailingZeros mask = place := by
  have places : ∀ place < 8, ((digits 8 (1 <<< place)).takeWhile (! ·)).length = place := by decide
  rw [trailingZeros, selects, places place inside]

/-- A mask has as many trailing zeros as the place that it selects. -/
theorem IsMask.toNat_eq (isMask : IsMask mask) :
    trailingZeros mask < 8 ∧ mask.toNat = 1 <<< trailingZeros mask := by
  obtain ⟨place, inside, selects⟩ := isMask
  rw [trailingZeros_of_eq inside selects]
  exact ⟨inside, selects⟩

/-- A mask that is moved up has one more trailing zero, also when it falls out of the byte. -/
theorem IsMask.trailingZeros_shiftLeft (isMask : IsMask mask) :
    trailingZeros (mask <<< 1) = trailingZeros mask + 1 := by
  obtain ⟨selects, falls⟩ | ⟨place, inside, selects, moved⟩ := isMask.shiftLeft_cases
  · rw [trailingZeros_of_eq (by decide) selects, falls]
    rfl
  · rw [trailingZeros_of_eq (Nat.lt_succ_of_lt inside) selects,
      trailingZeros_of_eq (Nat.succ_lt_succ inside) moved]

/-- A byte below a mask, with the bit at the mask set or not, is below the next mask. -/
theorem IsMask.lt_shiftLeft {byte : UInt8} (isMask : IsMask mask) (stays : mask <<< 1 ≠ 0)
    (below : byte < mask) (bit : Bool) : (if bit then byte ||| mask else byte) < mask <<< 1 := by
  obtain ⟨-, falls⟩ | ⟨place, -, selects, moved⟩ := isMask.shiftLeft_cases
  · exact absurd falls stays
  · rw [UInt8.lt_iff_toNat_lt, selects, Nat.one_shiftLeft] at below
    have next : 2 ^ place < 2 ^ (place + 1) :=
      Nat.pow_lt_pow_right Nat.one_lt_two (Nat.lt_succ_self place)
    rw [UInt8.lt_iff_toNat_lt, moved, Nat.one_shiftLeft]
    cases bit
    · exact Nat.lt_trans below next
    · rw [if_pos rfl, UInt8.toNat_or, selects, Nat.one_shiftLeft]
      exact Nat.or_lt_two_pow (Nat.lt_trans below next) next

end Masks

/-- A place in a byte sequence: the bytes that have bits left, and the next bit of the first one. -/
structure Reader where
  bytes : List UInt8
  mask : UInt8
  isMask : IsMask mask
  atEnd : bytes = [] → mask = 1
  deriving DecidableEq, Repr

/-- A mask selects a bit of the last byte, which holds only zeros from there on. -/
def HasRoom (bytes : Array UInt8) (mask : UInt8) : Prop :=
  IsMask mask ∧ ∃ (full : Array UInt8) (last : UInt8), bytes = full.push last ∧ last < mask

/-- Write a bit at a mask of the last byte, in which it is zero. -/
def markLast (bytes : Array UInt8) (mask : UInt8) (bit : Bool) : Array UInt8 :=
  if bit then bytes.modify (bytes.size - 1) (· ||| mask) else bytes

theorem markLast_push (full : Array UInt8) (last mask : UInt8) (bit : Bool) :
    markLast (full.push last) mask bit = full.push (if bit then last ||| mask else last) := by
  cases bit
  · rfl
  refine Array.ext (by simp [markLast]) fun index _ inside => ?_
  rw [Array.size_push] at inside
  simp only [markLast, if_pos, Array.getElem_modify, Array.size_push, Nat.add_sub_cancel,
    Array.getElem_push]
  split
  · rw [dif_neg (by omega), dif_neg (by omega)]
  · rw [dif_pos (by omega), dif_pos (by omega)]

/-- When the bit at a mask has been written, there is room from the next mask on, if it has not
fallen out of the byte. -/
theorem HasRoom.shiftLeft {bytes : Array UInt8} {mask : UInt8} (room : HasRoom bytes mask)
    (bit : Bool) :
    mask <<< 1 = 0 ∨
      (1 : UInt8) < mask <<< 1 ∧ HasRoom (markLast bytes mask bit) (mask <<< 1) := by
  obtain ⟨isMask, full, last, rfl, below⟩ := room
  by_cases falls : mask <<< 1 = 0
  · exact .inl falls
  · exact .inr ⟨isMask.one_lt_shiftLeft falls, isMask.shiftLeft falls, full, _,
      markLast_push full last mask bit, isMask.lt_shiftLeft falls below bit⟩

/-- The bytes that have been written, and the next free bit of the last one, if it is not full. -/
structure Writer where
  bytes : Array UInt8
  mask : UInt8
  hasRoom : mask = 0 ∨ 1 < mask ∧ HasRoom bytes mask
  deriving DecidableEq, Repr

namespace Reader

/-- A reader at the start of a byte sequence. -/
def ofBytes (bytes : List UInt8) : Reader := ⟨bytes, 1, isMask_one, fun _ => rfl⟩

/-- How many bits are left. -/
def remaining (reader : Reader) : Nat := 8 * reader.bytes.length - trailingZeros reader.mask

/-- Read a single bit. -/
def next (reader : Reader) : Outcome (Bool × Reader) :=
  match reader.bytes with
  | [] => .error (.undecodable .endOfData)
  | byte :: rest =>
      let bit := byte &&& reader.mask != 0
      if falls : reader.mask <<< 1 = 0 then .ok (bit, ofBytes rest)
      else .ok (bit, ⟨byte :: rest, reader.mask <<< 1, reader.isMask.shiftLeft falls,
        fun none => absurd none (List.cons_ne_nil byte rest)⟩)

/-- A bit that is read is one bit less that remains. -/
theorem remaining_of_next {reader after : Reader} {bit : Bool}
    (read : reader.next = .ok (bit, after)) : after.remaining + 1 = reader.remaining := by
  obtain ⟨bytes, mask, isMask, atEnd⟩ := reader
  obtain ⟨inside, -⟩ := isMask.toNat_eq
  have moved := isMask.trailingZeros_shiftLeft
  cases bytes with
  | nil => cases read
  | cons byte rest =>
      simp only [next] at read
      split at read
      · rename_i falls
        cases read
        rw [falls] at moved
        have zeros : trailingZeros 0 = 8 := rfl
        have none : trailingZeros 1 = 0 := rfl
        simp only [remaining, ofBytes, List.length_cons]
        omega
      · cases read
        simp only [remaining, List.length_cons]
        omega

/-- Read so many bits into a number, beginning at a place in it. A reader that runs out of bits has
read all of them. -/
def readFrom (reader : Reader) (number place : Nat) : Nat → Outcome Nat × Reader
  | 0 => (.ok number, reader)
  | count + 1 =>
      match reader.next with
      | .error failure => (.error failure, reader)
      | .ok (bit, after) =>
          after.readFrom (if bit then number ||| 1 <<< place else number) (place + 1) count

/-- Read a number of a given width. -/
def read (reader : Reader) (width : Nat) : Outcome Nat × Reader :=
  if widest < width then (.error (.breach .widthTooLarge), reader) else reader.readFrom 0 0 width

/-- Count on while the bits are ones, and pass over the zero after them. -/
def countOnes (reader : Reader) (ones : Nat) : Outcome Nat × Reader :=
  match found : reader.next with
  | .error failure => (.error failure, reader)
  | .ok (false, after) => (.ok ones, after)
  | .ok (true, after) => after.countOnes (ones + 1)
termination_by reader.remaining
decreasing_by exact Nat.le_of_eq (remaining_of_next found)

/-- Read a count that is written as so many ones and a zero. -/
def readUnary (reader : Reader) : Outcome Nat × Reader := reader.countOnes 0

end Reader

namespace Writer

/-- A writer that has been given nothing. -/
def empty : Writer := ⟨#[], 0, .inl rfl⟩

/-- The bytes and the place for the next bit, which is in a new byte if the last one is full. -/
def opened (writer : Writer) : Array UInt8 × UInt8 :=
  if writer.mask = 0 then (writer.bytes.push 0, 1) else (writer.bytes, writer.mask)

theorem hasRoom_opened (writer : Writer) : HasRoom writer.opened.1 writer.opened.2 := by
  rw [opened]
  split
  · exact ⟨isMask_one, writer.bytes, 0, rfl, UInt8.lt_iff_toNat_lt.mpr Nat.zero_lt_one⟩
  · exact (writer.hasRoom.resolve_left ‹_›).2

/-- Write a single bit. -/
def push (writer : Writer) (bit : Bool) : Writer :=
  match writer.opened, writer.hasRoom_opened with
  | (bytes, mask), room => ⟨markLast bytes mask bit, mask <<< 1, room.shiftLeft bit⟩

/-- Write the lowest bits of a number. -/
def write (writer : Writer) (number width : Nat) : Outcome Writer :=
  if widest < width then .error (.breach .widthTooLarge)
  else
    .ok ((List.range width).foldl (fun writer place => writer.push (number.testBit place)) writer)

/-- Write a count as so many ones and a zero. -/
def writeUnary (writer : Writer) (count : Nat) : Writer :=
  (Nat.repeat (·.push true) count writer).push false

/-- The bytes written so far. -/
def toBytes (writer : Writer) : List UInt8 := writer.bytes.toList

end Writer

end PrivateRetrieval.Bits
