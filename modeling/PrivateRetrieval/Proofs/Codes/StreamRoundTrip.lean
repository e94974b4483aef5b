/-
# Bit streams read back

A writer that is given numbers of some widths and counts in unary, in any order, holds as many bytes
as their bits fill, and a reader of these bytes that is asked for the same widths and counts in the
same order returns what was written. Between two requests the mask may stand at any bit of a byte.

A reader of any bytes can be asked for anything. Of a request that it refuses it has taken the bits
that there were, so it can be asked on and still says how many bits remain.
-/

import PrivateRetrieval.Proofs.Codes.Streams

namespace PrivateRetrieval.Bits

/-- What a reader is asked for: a number of some width, or a count in unary. -/
inductive Request
  | number (width : Nat)
  | unary
  deriving DecidableEq, Repr

/-- What a writer is given: a number of which so many bits are written, or a count in unary. -/
inductive Item
  | number (number width : Nat)
  | unary (count : Nat)
  deriving DecidableEq, Repr

namespace Request

/-- No number is wider than those that are read at once. -/
def Narrow : Request → Prop
  | .number width => width ≤ widest
  | .unary => True

instance : DecidablePred Narrow
  | .number width => inferInstanceAs (Decidable (width ≤ widest))
  | .unary => inferInstanceAs (Decidable True)

/-- How many bits there are to a result. -/
def size : Request → Nat → Nat
  | .number width, _ => width
  | .unary, count => count + 1

end Request

namespace Item

/-- What is asked for to read an item back. -/
def request : Item → Request
  | .number _ width => .number width
  | .unary _ => .unary

/-- What an item reads back as: the bits of a number beyond the width are not written. -/
def result : Item → Nat
  | .number given width => given % 2 ^ width
  | .unary count => count

/-- The bits of an item. -/
def bits : Item → List Bool
  | .number given width => digits width given
  | .unary count => Bits.unary count

/-- How many bits an item has. -/
def size (item : Item) : Nat := item.request.size item.result

theorem length_bits (item : Item) : item.bits.length = item.size := by
  cases item with
  | number given width => exact length_digits width given
  | unary count =>
      rw [bits, Bits.unary, List.length_append, List.length_replicate]
      rfl

theorem length_flatMap_bits (items : List Item) :
    (items.flatMap bits).length = (items.map size).sum := by
  rw [List.length_flatMap]
  exact congrArg List.sum (List.map_congr_left fun item _ => item.length_bits)

end Item

namespace Writer

/-- Write an item. -/
def writeItem (writer : Writer) : Item → Outcome Writer
  | .number number width => writer.write number width
  | .unary count => .ok (writer.writeUnary count)

/-- Items are written bit after bit. -/
theorem exists_writeItem (writer : Writer) (item : Item) (narrow : item.request.Narrow) :
    ∃ after, writer.writeItem item = .ok after ∧ after.bits = writer.bits ++ item.bits := by
  cases item with
  | number number width => exact writer.exists_write number narrow
  | unary count => exact ⟨_, rfl, writer.bits_writeUnary count⟩

theorem exists_writeItems (writer : Writer) {items : List Item}
    (narrow : ∀ item ∈ items, item.request.Narrow) :
    ∃ after, items.foldlM writeItem writer = .ok after ∧
      after.bits = writer.bits ++ items.flatMap Item.bits :=
  exists_foldlM
    (fun item member writer => writer.exists_writeItem item (narrow item member)) writer

end Writer

namespace Reader

/-- Answer a request. -/
def serve (reader : Reader) : Request → Outcome Nat × Reader
  | .number width => reader.read width
  | .unary => reader.readUnary

/-- Answer requests one after the other, up to the first that is refused. -/
def serveAll (reader : Reader) : List Request → Outcome (List Nat) × Reader
  | [] => (.ok [], reader)
  | request :: requests =>
      match reader.serve request with
      | (.error failure, after) => (.error failure, after)
      | (.ok result, between) =>
          match between.serveAll requests with
          | (.error failure, after) => (.error failure, after)
          | (.ok results, after) => (.ok (result :: results), after)

/-- The reader after requests, those that it refused included. -/
def after (reader : Reader) (requests : List Request) : Reader :=
  requests.foldl (fun reader request => (reader.serve request).2) reader

variable {reader last : Reader}

/-- A request is served with the bits of its result, or refused when all bits have been taken. -/
theorem serve_cases (reader : Reader) {request : Request} (narrow : request.Narrow) :
    (∃ result taken last, reader.Takes taken last ∧ taken.length = request.size result ∧
        reader.serve request = (.ok result, last)) ∨
      ∃ last, reader.Takes reader.rest last ∧
        reader.serve request = (.error (.undecodable .endOfData), last) := by
  cases request with
  | number width =>
      obtain ⟨taken, last, takes, length, read⟩ | ⟨-, refused⟩ := reader.read_cases narrow
      · exact .inl ⟨value taken, taken, last, takes, length, read⟩
      · exact .inr refused
  | unary =>
      obtain ⟨count, last, takes, read⟩ | ⟨-, refused⟩ := reader.readUnary_cases
      · exact .inl ⟨count, Bits.unary count, last, takes, (Item.unary count).length_bits, read⟩
      · exact .inr refused

/-- The bits of an item are served as its result. -/
theorem Takes.serve {item : Item} (takes : reader.Takes item.bits last)
    (narrow : item.request.Narrow) : reader.serve item.request = (.ok item.result, last) := by
  cases item with
  | number given width =>
      have length : (digits width given).length = width := length_digits width given
      have read := takes.read (length.trans_le narrow)
      rwa [Item.bits, length, value_digits] at read
  | unary count => exact takes.readUnary

theorem Takes.serveAll {items : List Item} (takes : reader.Takes (items.flatMap Item.bits) last)
    (narrow : ∀ item ∈ items, item.request.Narrow) :
    reader.serveAll (items.map Item.request) = (.ok (items.map Item.result), last) := by
  induction items generalizing reader with
  | nil =>
      cases takes
      rfl
  | cons item items ih =>
      obtain ⟨first, others⟩ := List.forall_mem_cons.mp narrow
      rw [List.flatMap_cons] at takes
      obtain ⟨between, takesFirst, takesRest⟩ := takes.split
      simp only [List.map_cons, Reader.serveAll, takesFirst.serve first, ih takesRest others]

/-- A request that is served takes the bits of its result, and one that is refused all bits. -/
theorem remaining_of_serve (reader : Reader) {request : Request} (narrow : request.Narrow) :
    (∃ result last, reader.serve request = (.ok result, last) ∧
        last.remaining + request.size result = reader.remaining) ∨
      ∃ last, reader.serve request = (.error (.undecodable .endOfData), last) ∧
        last.remaining = 0 := by
  obtain ⟨result, taken, last, takes, length, served⟩ | ⟨last, takes, refused⟩ :=
    reader.serve_cases narrow
  · refine .inl ⟨result, last, served, ?_⟩
    rw [← length, Nat.add_comm, takes.length_add_remaining]
  · have total := takes.length_add_remaining
    rw [← reader.remaining_eq, Nat.add_eq_left] at total
    exact .inr ⟨last, refused, total⟩

/-- Requests only take bits. -/
theorem exists_takes_after (reader : Reader) {requests : List Request}
    (narrow : ∀ request ∈ requests, request.Narrow) :
    ∃ taken, reader.Takes taken (reader.after requests) := by
  induction requests generalizing reader with
  | nil => exact ⟨[], .nil reader⟩
  | cons request requests ih =>
      obtain ⟨first, others⟩ := List.forall_mem_cons.mp narrow
      obtain ⟨taken, takes⟩ : ∃ taken, reader.Takes taken (reader.serve request).2 := by
        obtain ⟨_, taken, last, takes, -, served⟩ | ⟨last, takes, served⟩ :=
          reader.serve_cases first
        · exact ⟨taken, by rwa [served]⟩
        · exact ⟨reader.rest, by rwa [served]⟩
      obtain ⟨more, takesMore⟩ := ih (reader.serve request).2 others
      exact ⟨taken ++ more, takes.append takesMore⟩

/-- Bits of bytes that are not taken remain. -/
theorem Takes.length_add_remaining_ofBytes {bytes : List UInt8} {taken : List Bool}
    (takes : (ofBytes bytes).Takes taken last) :
    taken.length + last.remaining = 8 * bytes.length := by
  rw [takes.length_add_remaining, remaining_eq, rest_ofBytes, length_unpack]

end Reader

/-- The first of the items that a writer was given are read back from its bytes. -/
theorem Writer.exists_serveAll {writer : Writer} {before others : List Item}
    (holds : writer.bits = (before ++ others).flatMap Item.bits)
    (narrow : ∀ item ∈ before, item.request.Narrow) :
    ∃ reader, (Reader.ofBytes writer.toBytes).serveAll (before.map Item.request) =
        (.ok (before.map Item.result), reader) ∧
      (before.map Item.size).sum + reader.remaining = 8 * writer.toBytes.length := by
  have front := writer.unpack_toBytes
  rw [holds, List.flatMap_append, List.append_assoc, ← Reader.rest_ofBytes] at front
  obtain ⟨reader, takes, -⟩ := Reader.exists_takes front
  refine ⟨reader, takes.serveAll narrow, ?_⟩
  rw [← takes.length_add_remaining_ofBytes, Item.length_flatMap_bits]

/-- What was written is read back. Items of widths that can be written at once are written into as
many bytes as their bits fill, with zeros after them. A reader of the bytes that is asked for the
widths and counts of the first items returns these items, and all bits but theirs remain.

Whatever a reader of some bytes is asked for, the bits that remain are those that it has not taken.
A request that is served takes as many bits as its result has, and one that is refused takes all
that remained. A number is read if and only if it is not wider than what remains. -/
theorem read_back_what_was_written :
    (∀ items : List Item, (∀ item ∈ items, item.request.Narrow) →
      ∃ writer, items.foldlM Writer.writeItem Writer.empty = .ok writer ∧
        let count := (items.map Item.size).sum
        let bytes := writer.toBytes
        bytes.length = (count + 7) / 8 ∧
          unpack bytes =
            items.flatMap Item.bits ++ List.replicate (8 * bytes.length - count) false ∧
          ∀ before others, items = before ++ others →
            ∃ reader, (Reader.ofBytes bytes).serveAll (before.map Item.request) =
                (.ok (before.map Item.result), reader) ∧
              (before.map Item.size).sum + reader.remaining = 8 * bytes.length) ∧
      (∀ (bytes : List UInt8) (requests : List Request),
        (∀ request ∈ requests, request.Narrow) →
        ∃ taken, (Reader.ofBytes bytes).Takes taken ((Reader.ofBytes bytes).after requests) ∧
          taken.length + ((Reader.ofBytes bytes).after requests).remaining = 8 * bytes.length) ∧
      (∀ (reader : Reader) (request : Request), request.Narrow →
        (∃ result after, reader.serve request = (.ok result, after) ∧
            after.remaining + request.size result = reader.remaining) ∨
          ∃ after, reader.serve request = (.error (.undecodable .endOfData), after) ∧
            after.remaining = 0) ∧
      ∀ (reader : Reader) (width : Nat), width ≤ 32 →
        ((∃ number after, reader.read width = (.ok number, after)) ↔
          width ≤ reader.remaining) := by
  refine ⟨?_, ?_, fun reader request => reader.remaining_of_serve,
    fun reader width => reader.exists_read_iff⟩
  · intro items narrow
    obtain ⟨writer, written, bits⟩ := Writer.empty.exists_writeItems narrow
    rw [Writer.bits_empty, List.nil_append] at bits
    have count : writer.bits.length = (items.map Item.size).sum := by
      rw [bits, Item.length_flatMap_bits]
    refine ⟨writer, written, ?_, ?_, ?_⟩
    · rw [writer.length_toBytes, count, byteCount]
    · rw [← count, ← bits]
      exact writer.unpack_toBytes
    · rintro before others rfl
      exact Writer.exists_serveAll bits fun item member =>
        narrow item (List.mem_append_left others member)
  · intro bytes requests narrow
    obtain ⟨taken, takes⟩ := (Reader.ofBytes bytes).exists_takes_after narrow
    exact ⟨taken, takes, takes.length_add_remaining_ofBytes⟩

/-- Numbers and counts over seven bytes, with two bits left over. -/
theorem read_back_across_bytes :
    ∃ writer reader,
      [.number 5 3, .unary 9, .number 4294967295 32, .number 300 8, .number 7 0, .unary 0].foldlM
          Writer.writeItem Writer.empty = .ok writer ∧
        writer.toBytes.length = 7 ∧
        (Reader.ofBytes writer.toBytes).serveAll
            [.number 3, .unary, .number 32, .number 8, .number 0, .unary] =
          (.ok [5, 9, 4294967295, 44, 0, 0], reader) ∧
        reader.remaining = 2 ∧ (∃ number after, reader.read 2 = (.ok number, after)) ∧
        ¬ ∃ number after, reader.read 3 = (.ok number, after) := by
  obtain ⟨back, -, -, succeeds⟩ := read_back_what_was_written
  obtain ⟨writer, written, length, -, prefixes⟩ := back
    [.number 5 3, .unary 9, .number 4294967295 32, .number 300 8, .number 7 0, .unary 0]
    (by decide)
  obtain ⟨reader, served, left⟩ := prefixes _ [] (List.append_nil _).symm
  have length : writer.toBytes.length = 7 := length
  have left : reader.remaining = 2 := by
    rw [length] at left
    exact Nat.add_left_cancel left
  refine ⟨writer, reader, written, length, served, left, ?_, ?_⟩
  · exact (succeeds reader 2 (by decide)).mpr (left ▸ Nat.le_refl 2)
  · rw [succeeds reader 3 (by decide), left]
    decide

end PrivateRetrieval.Bits
