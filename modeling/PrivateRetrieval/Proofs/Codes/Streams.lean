/-
# What readers have left and writers hold

A reader has the bits left from its place to the end of its bytes, and a writer holds the bits up to
its place. All that a reader returns and a writer does is told by these two lists: a bit is read off
the front of the one and put at the end of the other, wherever in a byte the mask stands. Larger
reads and writes follow bit by bit. The bytes of a writer are its bits, packed, with zeros after
them and with no byte that holds none of them.
-/

import PrivateRetrieval.Proofs.Codes.Packing
import PrivateRetrieval.Bits.Stream

namespace PrivateRetrieval.Bits

/-- A mask picks out the bit at the place that it selects. -/
theorem and_mask_ne_zero {byte mask : UInt8} {place : Nat}
    (selects : mask.toNat = 1 <<< place) : (byte &&& mask != 0) = byte.toNat.testBit place := by
  have isZero : byte &&& mask = 0 ↔ byte.toNat &&& 2 ^ place = 0 := by
    rw [← UInt8.toNat_inj, UInt8.toNat_and, selects, Nat.one_shiftLeft]
    rfl
  rw [Bool.eq_iff_iff, bne_iff_ne, ne_eq, isZero, Nat.and_two_pow]
  cases byte.toNat.testBit place <;> simp

theorem trailingZeros_le (byte : UInt8) : trailingZeros byte ≤ 8 := by
  rw [trailingZeros]
  exact (List.takeWhile_prefix _).length_le.trans_eq (length_digits 8 byte.toNat)

/-- Of the bits of bytes from a place in the first one on, the first is the bit at that place. -/
theorem drop_unpack_cons (byte : UInt8) (bytes : List UInt8) {place : Nat} (inside : place < 8) :
    (unpack (byte :: bytes)).drop place =
      byte.toNat.testBit place :: (unpack (byte :: bytes)).drop (place + 1) := by
  have within : place < (unpack (byte :: bytes)).length := by
    rw [length_unpack, List.length_cons]
    omega
  have first : (unpack (byte :: bytes))[place] = byte.toNat.testBit place := by
    refine Option.some.inj ((List.getElem?_eq_getElem within).symm.trans ?_)
    rw [unpack_cons, List.getElem?_append_left (by rwa [length_digits]), getElem?_digits inside]
  rw [List.drop_eq_getElem_cons within, first]

/-- A bit that is set above a number adds a power of two to it. -/
theorem or_shiftLeft_eq {number place : Nat} (below : number < 2 ^ place) (bit : Bool) :
    (if bit then number ||| 1 <<< place else number) = number + 2 ^ place * bit.toNat := by
  cases bit
  · rfl
  · rw [if_pos rfl, Nat.one_shiftLeft, Nat.or_comm]
    have disjoint := Nat.two_pow_add_eq_or_of_lt below 1
    rw [Nat.mul_one] at disjoint
    rw [← disjoint, Bool.toNat_true, Nat.mul_one, Nat.add_comm]

/-- The bits of a count in unary. -/
def unary (count : Nat) : List Bool := List.replicate count true ++ [false]

/-- Bits begin with a count in unary, or they are all ones. -/
theorem unary_append_or_ones (bits : List Bool) :
    (∃ count left, bits = unary count ++ left) ∨ ∀ bit ∈ bits, bit = true := by
  induction bits with
  | nil => exact .inr nofun
  | cons bit bits ih =>
      cases bit
      · exact .inl ⟨0, bits, rfl⟩
      · obtain ⟨count, left, rfl⟩ | allOnes := ih
        · exact .inl ⟨count + 1, left, rfl⟩
        · exact .inr (List.forall_mem_cons.mpr ⟨rfl, allOnes⟩)

namespace Reader

/-- The bits that a reader has left. -/
def rest (reader : Reader) : List Bool := (unpack reader.bytes).drop (trailingZeros reader.mask)

theorem rest_ofBytes (bytes : List UInt8) : (ofBytes bytes).rest = unpack bytes := rfl

theorem remaining_eq (reader : Reader) : reader.remaining = reader.rest.length := by
  rw [remaining, rest, List.length_drop, length_unpack]

/-- A reader is at the end and reads nothing, or it reads the first of the bits that it has left. -/
theorem next_cases (reader : Reader) :
    (reader.rest = [] ∧ reader.next = .error (.undecodable .endOfData)) ∨
      ∃ bit after, reader.next = .ok (bit, after) ∧ reader.rest = bit :: after.rest := by
  obtain ⟨bytes, mask, isMask, atEnd⟩ := reader
  cases bytes with
  | nil =>
      obtain rfl := atEnd rfl
      exact .inl ⟨rfl, rfl⟩
  | cons byte bytes =>
      obtain ⟨inside, selects⟩ := isMask.toNat_eq
      have moved := isMask.trailingZeros_shiftLeft
      have left : rest ⟨byte :: bytes, mask, isMask, atEnd⟩ =
          (byte &&& mask != 0) :: (unpack (byte :: bytes)).drop (trailingZeros (mask <<< 1)) := by
        rw [rest, drop_unpack_cons byte bytes inside, and_mask_ne_zero selects, moved]
      right
      by_cases falls : mask <<< 1 = 0
      · -- The last bit of the byte: the bits that are left are those of the bytes after it.
        have whole : trailingZeros 0 = (digits 8 byte.toNat).length :=
          (length_digits 8 byte.toNat).symm
        refine ⟨byte &&& mask != 0, ofBytes bytes, ?_, left.trans ?_⟩
        · simp only [next, dif_pos falls]
        · rw [falls, unpack_cons, whole, List.drop_left, rest_ofBytes]
      · refine ⟨byte &&& mask != 0, ⟨byte :: bytes, mask <<< 1, isMask.shiftLeft falls, fun none =>
          absurd none (List.cons_ne_nil byte bytes)⟩, ?_, left⟩
        simp only [next, dif_neg falls]

/-! ## Taking bits -/

/-- A reader is led to another one by reading bits one after the other. -/
inductive Takes : Reader → List Bool → Reader → Prop
  | nil (reader : Reader) : Takes reader [] reader
  | cons {reader between after : Reader} {bit : Bool} {bits : List Bool} :
      reader.next = .ok (bit, between) → Takes between bits after → Takes reader (bit :: bits) after

variable {reader between after : Reader} {bits more left : List Bool}

/-- The bits that are taken are those at the front. -/
theorem Takes.rest_eq (takes : reader.Takes bits after) : reader.rest = bits ++ after.rest := by
  induction takes with
  | nil reader => rfl
  | cons read _ ih =>
      obtain ⟨-, fails⟩ | ⟨bit, after, reads, left⟩ := next_cases _
      · rw [fails] at read
        cases read
      · rw [reads] at read
        cases read
        rw [left, ih, List.cons_append]

/-- Whatever is at the front can be taken. -/
theorem exists_takes (front : reader.rest = bits ++ left) :
    ∃ after, reader.Takes bits after ∧ after.rest = left := by
  induction bits generalizing reader with
  | nil => exact ⟨reader, .nil reader, front⟩
  | cons bit bits ih =>
      obtain ⟨none, -⟩ | ⟨_, between, read, begins⟩ := next_cases reader
      · rw [none] at front
        cases front
      · obtain ⟨rfl, remains⟩ := List.cons.inj (begins.symm.trans front)
        obtain ⟨after, takes, isLeft⟩ := ih remains
        exact ⟨after, .cons read takes, isLeft⟩

theorem Takes.append (first : reader.Takes bits between) (second : between.Takes more after) :
    reader.Takes (bits ++ more) after := by
  induction first with
  | nil => exact second
  | cons read _ ih => exact .cons read (ih second)

/-- Bits that are taken are taken in two parts. -/
theorem Takes.split (takes : reader.Takes (bits ++ more) after) :
    ∃ between, reader.Takes bits between ∧ between.Takes more after := by
  induction bits generalizing reader with
  | nil => exact ⟨reader, .nil reader, takes⟩
  | cons bit bits ih =>
      cases takes with
      | cons read takes =>
          obtain ⟨between, first, second⟩ := ih takes
          exact ⟨between, .cons read first, second⟩

/-- How many bits are left tells how many were taken. -/
theorem Takes.length_add_remaining (takes : reader.Takes bits after) :
    bits.length + after.remaining = reader.remaining := by
  rw [remaining_eq, remaining_eq, takes.rest_eq, List.length_append]

/-! ## Numbers -/

/-- Bits that are taken are added to a number as its digits from a place on. -/
theorem Takes.readFrom (takes : reader.Takes bits after) {number place : Nat}
    (below : number < 2 ^ place) :
    reader.readFrom number place bits.length = (.ok (number + 2 ^ place * value bits), after) := by
  induction takes generalizing number place with
  | nil reader => rfl
  | @cons reader between after bit bits read takes ih =>
      have wider : number + 2 ^ place * bit.toNat < 2 ^ (place + 1) := by
        rw [Nat.pow_succ]
        cases bit <;> simp <;> omega
      rw [List.length_cons, Reader.readFrom, read]
      dsimp only
      rw [or_shiftLeft_eq below, ih wider, value, Nat.pow_succ]
      congr 2
      ring

/-- A reader that is to read more bits than it has left reads all of them and fails. -/
theorem Takes.readFrom_of_end (takes : reader.Takes bits after) (atEnd : after.rest = [])
    {number place count : Nat} (short : bits.length < count) :
    reader.readFrom number place count = (.error (.undecodable .endOfData), after) := by
  induction takes generalizing number place count with
  | nil reader =>
      obtain ⟨count, rfl⟩ := Nat.exists_eq_add_of_lt short
      obtain ⟨-, fails⟩ | ⟨bit, after, -, left⟩ := next_cases reader
      · rw [Reader.readFrom, fails]
      · rw [atEnd] at left
        cases left
  | cons read takes ih =>
      cases count with
      | zero => cases short
      | succ count =>
          rw [Reader.readFrom, read]
          exact ih atEnd (Nat.lt_of_succ_lt_succ short)

/-- Bits that are taken are read as a number. -/
theorem Takes.read (takes : reader.Takes bits after) (narrow : bits.length ≤ widest) :
    reader.read bits.length = (.ok (value bits), after) := by
  have start : 0 < 2 ^ 0 := Nat.one_pos
  have reads := takes.readFrom start
  rw [Nat.zero_add, Nat.pow_zero, Nat.one_mul] at reads
  rw [Reader.read, if_neg (Nat.not_lt.mpr narrow), reads]

/-- A number is read off the bits that a reader has left. If they are too few, all are taken. -/
theorem read_cases (reader : Reader) {width : Nat} (narrow : width ≤ widest) :
    (∃ bits after, reader.Takes bits after ∧ bits.length = width ∧
        reader.read width = (.ok (value bits), after)) ∨
      (reader.remaining < width ∧ ∃ after, reader.Takes reader.rest after ∧
        reader.read width = (.error (.undecodable .endOfData), after)) := by
  rw [remaining_eq]
  rcases Nat.lt_or_ge reader.rest.length width with short | long
  · obtain ⟨after, takes, atEnd⟩ := exists_takes (List.append_nil reader.rest).symm
    refine .inr ⟨short, after, takes, ?_⟩
    rw [Reader.read, if_neg (Nat.not_lt.mpr narrow), takes.readFrom_of_end atEnd short]
  · obtain ⟨after, takes, -⟩ := exists_takes (List.take_append_drop width reader.rest).symm
    have length : (reader.rest.take width).length = width := List.length_take_of_le long
    have reads := takes.read (length.trans_le narrow)
    rw [length] at reads
    exact .inl ⟨_, after, takes, length, reads⟩

/-- A number is read if and only if it is not wider than what is left. -/
theorem exists_read_iff (reader : Reader) {width : Nat} (narrow : width ≤ widest) :
    (∃ number after, reader.read width = (.ok number, after)) ↔ width ≤ reader.remaining := by
  constructor
  · rintro ⟨number, after, read⟩
    obtain ⟨bits, _, takes, length, -⟩ | ⟨-, _, -, refused⟩ := reader.read_cases narrow
    · have total := takes.length_add_remaining
      omega
    · rw [refused] at read
      cases read
  · intro long
    obtain ⟨bits, after, -, -, read⟩ | ⟨short, -⟩ := reader.read_cases narrow
    · exact ⟨value bits, after, read⟩
    · exact absurd long (Nat.not_le.mpr short)

/-! ## Counts -/

/-- One round of counting, without the proof that fewer bits remain after it. -/
theorem countOnes_eq (reader : Reader) (ones : Nat) :
    reader.countOnes ones =
      match reader.next with
      | .error failure => (.error failure, reader)
      | .ok (false, after) => (.ok ones, after)
      | .ok (true, after) => after.countOnes (ones + 1) := by
  rw [countOnes]
  split <;> rename_i found <;> rw [found]

/-- Ones and a zero that are taken are counted. -/
theorem Takes.countOnes {count : Nat} (takes : reader.Takes (unary count) after) (ones : Nat) :
    reader.countOnes ones = (.ok (ones + count), after) := by
  induction count generalizing reader ones with
  | zero =>
      cases takes with
      | cons read takes =>
          cases takes
          rw [countOnes_eq, read]
          rfl
  | succ count ih =>
      cases takes with
      | cons read takes =>
          rw [countOnes_eq, read]
          refine (ih takes (ones + 1)).trans ?_
          rw [Nat.add_right_comm, Nat.add_assoc]

theorem Takes.readUnary {count : Nat} (takes : reader.Takes (unary count) after) :
    reader.readUnary = (.ok count, after) := by
  rw [Reader.readUnary, takes.countOnes, Nat.zero_add]

/-- A reader that has only ones left counts all of them and fails. -/
theorem Takes.countOnes_of_end (takes : reader.Takes bits after) (atEnd : after.rest = [])
    (allOnes : ∀ bit ∈ bits, bit = true) (ones : Nat) :
    reader.countOnes ones = (.error (.undecodable .endOfData), after) := by
  induction takes generalizing ones with
  | nil reader =>
      obtain ⟨-, fails⟩ | ⟨bit, after, -, left⟩ := next_cases reader
      · rw [countOnes_eq, fails]
      · rw [atEnd] at left
        cases left
  | cons read takes ih =>
      obtain ⟨rfl, others⟩ := List.forall_mem_cons.mp allOnes
      rw [countOnes_eq, read]
      exact ih atEnd others (ones + 1)

/-- A count is read up to the first zero. If there is none, all bits are taken. -/
theorem readUnary_cases (reader : Reader) :
    (∃ count after, reader.Takes (unary count) after ∧
        reader.readUnary = (.ok count, after)) ∨
      ((∀ bit ∈ reader.rest, bit = true) ∧ ∃ after, reader.Takes reader.rest after ∧
        reader.readUnary = (.error (.undecodable .endOfData), after)) := by
  rcases unary_append_or_ones reader.rest with ⟨count, left, begins⟩ | allOnes
  · obtain ⟨after, takes, -⟩ := exists_takes begins
    exact .inl ⟨count, after, takes, takes.readUnary⟩
  · obtain ⟨after, takes, atEnd⟩ := exists_takes (List.append_nil reader.rest).symm
    exact .inr ⟨allOnes, after, takes, takes.countOnes_of_end atEnd allOnes 0⟩

end Reader

namespace Writer

/-- The bits in bytes of which the last one is filled up to a mask. -/
def held (bytes : Array UInt8) (mask : UInt8) : List Bool :=
  (unpack bytes.toList).take (8 * bytes.size - (8 - trailingZeros mask))

/-- The bits that a writer holds. -/
def bits (writer : Writer) : List Bool := held writer.bytes writer.mask

theorem bits_empty : empty.bits = [] := rfl

theorem held_push (full : Array UInt8) (last mask : UInt8) :
    held (full.push last) mask = unpack full.toList ++ digits (trailingZeros mask) last.toNat := by
  have few := trailingZeros_le mask
  have count : 8 * (full.push last).size - (8 - trailingZeros mask) =
      (unpack full.toList).length + trailingZeros mask := by
    rw [Array.size_push, length_unpack, Array.length_toList]
    omega
  rw [held, count, Array.toList_push, unpack_append, List.take_length_add_append, unpack_cons,
    List.take_append_of_le_length (by rwa [length_digits]), take_digits few]

theorem held_of_mask_eq_zero (bytes : Array UInt8) : held bytes 0 = unpack bytes.toList := by
  refine List.take_of_length_le ?_
  rw [length_unpack, Array.length_toList]
  exact Nat.le_refl _

theorem held_opened (writer : Writer) : held writer.opened.1 writer.opened.2 = writer.bits := by
  rw [opened, bits]
  split
  · rename_i full
    rw [full, held_of_mask_eq_zero, held_push]
    exact List.append_nil _
  · rfl

/-- A bit that is written into the last byte is held after the others. -/
theorem held_markLast {bytes : Array UInt8} {mask : UInt8} (room : HasRoom bytes mask)
    (bit : Bool) : held (markLast bytes mask bit) (mask <<< 1) = held bytes mask ++ [bit] := by
  obtain ⟨isMask, full, last, rfl, below⟩ := room
  obtain ⟨-, selects⟩ := isMask.toNat_eq
  rw [UInt8.lt_iff_toNat_lt, selects, Nat.one_shiftLeft] at below
  set lowest := digits (trailingZeros mask) last.toNat with isLowest
  have marked : (if bit then last ||| mask else last).toNat = value (lowest ++ [bit]) := by
    rw [apply_ite UInt8.toNat, UInt8.toNat_or, selects, or_shiftLeft_eq below,
      value_append, isLowest, value_digits, Nat.mod_eq_of_lt below, length_digits]
    rfl
  have longer : trailingZeros mask + 1 = (lowest ++ [bit]).length := by
    rw [List.length_append, isLowest, length_digits, List.length_singleton]
  rw [markLast_push, held_push, held_push, isMask.trailingZeros_shiftLeft, marked, longer,
    digits_value, List.append_assoc]

/-- A bit that is written is added at the end. -/
theorem bits_push (writer : Writer) (bit : Bool) :
    (writer.push bit).bits = writer.bits ++ [bit] :=
  (held_markLast writer.hasRoom_opened bit).trans
    (congrArg (· ++ [bit]) (held_opened writer))

/-- A writer has full bytes only, or bits in a last byte that is not full. -/
theorem bits_cases (writer : Writer) :
    writer.bits = unpack writer.toBytes ∨
      ∃ (full : List UInt8) (last : UInt8) (count : Nat), writer.toBytes = full ++ [last] ∧
        0 < count ∧ count < 8 ∧ last.toNat < 2 ^ count ∧
        writer.bits = unpack full ++ digits count last.toNat := by
  obtain ⟨bytes, mask, hasRoom⟩ := writer
  rcases hasRoom with rfl | ⟨begun, isMask, full, last, rfl, below⟩
  · exact .inl (held_of_mask_eq_zero bytes)
  · obtain ⟨inside, selects⟩ := isMask.toNat_eq
    rw [UInt8.lt_iff_toNat_lt, selects, Nat.one_shiftLeft] at begun below
    refine .inr ⟨full.toList, last, trailingZeros mask, Array.toList_push, ?_, inside, below,
      held_push full last mask⟩
    refine Nat.pos_of_ne_zero fun none => ?_
    rw [none] at begun
    exact absurd begun (by decide)

/-- The bytes of a writer are its bits, and zeros after them. -/
theorem toBytes_eq_pack (writer : Writer) : writer.toBytes = pack writer.bits := by
  refine unpack_injective ?_
  rw [pack, unpack_packInto (byteCount_spec _), byteCount]
  obtain whole | ⟨full, last, count, bytes, filled, free, below, bits⟩ := writer.bits_cases
  · have none : 8 * ((8 * writer.toBytes.length + 7) / 8) - 8 * writer.toBytes.length = 0 := by
      omega
    rw [whole, length_unpack, none, List.replicate_zero, List.append_nil]
  · have zeros : 8 * ((8 * full.length + count + 7) / 8) - (8 * full.length + count) =
        8 - count := by
      omega
    have lastBits : digits 8 last.toNat =
        digits count last.toNat ++ List.replicate (8 - count) false := by
      have filling := digits_value_of_le
        ((length_digits count last.toNat).trans_le (Nat.le_of_lt free))
      rwa [value_digits, Nat.mod_eq_of_lt below, length_digits] at filling
    have alone : unpack [last] = digits 8 last.toNat := List.append_nil _
    rw [bits, List.length_append, length_unpack, length_digits, zeros, List.append_assoc,
      ← lastBits, bytes, unpack_append, alone]

/-- A writer has as many bytes as its bits fill. -/
theorem length_toBytes (writer : Writer) :
    writer.toBytes.length = byteCount writer.bits.length := by
  rw [toBytes_eq_pack, length_pack]

theorem unpack_toBytes (writer : Writer) :
    unpack writer.toBytes =
      writer.bits ++ List.replicate (8 * writer.toBytes.length - writer.bits.length) false := by
  rw [length_toBytes, toBytes_eq_pack, pack, unpack_packInto (byteCount_spec _)]

theorem bits_foldl_push {α : Type} (bit : α → Bool) (items : List α) (writer : Writer) :
    (items.foldl (fun writer item => writer.push (bit item)) writer).bits =
      writer.bits ++ items.map bit := by
  induction items generalizing writer with
  | nil => exact (List.append_nil _).symm
  | cons item items ih =>
      rw [List.foldl_cons, ih, bits_push, List.map_cons, List.append_assoc, List.singleton_append]

/-- Items that are written bit after bit are written one after the other. -/
theorem exists_foldlM {α : Type} {step : Writer → α → Outcome Writer} {coded : α → List Bool}
    {items : List α}
    (writes : ∀ item ∈ items, ∀ writer, ∃ after, step writer item = .ok after ∧
      after.bits = writer.bits ++ coded item) (writer : Writer) :
    ∃ after, items.foldlM step writer = .ok after ∧
      after.bits = writer.bits ++ items.flatMap coded := by
  induction items generalizing writer with
  | nil => exact ⟨writer, rfl, (List.append_nil _).symm⟩
  | cons item items ih =>
      obtain ⟨first, others⟩ := List.forall_mem_cons.mp writes
      obtain ⟨between, written, bits⟩ := first writer
      obtain ⟨after, writtenRest, bitsRest⟩ := ih others between
      refine ⟨after, ?_, ?_⟩
      · rw [List.foldlM_cons, written]
        exact writtenRest
      · rw [bitsRest, bits, List.append_assoc, List.flatMap_cons]

/-- A number is written as its lowest digits. -/
theorem exists_write (writer : Writer) (number : Nat) {width : Nat} (narrow : width ≤ widest) :
    ∃ after, writer.write number width = .ok after ∧
      after.bits = writer.bits ++ digits width number := by
  refine ⟨_, if_neg (Nat.not_lt.mpr narrow), ?_⟩
  rw [bits_foldl_push, digits_eq_map_range]

/-- A count is written in unary. -/
theorem bits_writeUnary (writer : Writer) (count : Nat) :
    (writer.writeUnary count).bits = writer.bits ++ unary count := by
  have ones : ∀ count, (Nat.repeat (·.push true) count writer).bits =
      writer.bits ++ List.replicate count true := by
    intro count
    induction count with
    | zero => exact (List.append_nil _).symm
    | succ count ih =>
        rw [Nat.repeat, bits_push, ih, List.append_assoc, List.replicate_succ']
  rw [writeUnary, bits_push, ones, unary, List.append_assoc]

end Writer

end PrivateRetrieval.Bits
