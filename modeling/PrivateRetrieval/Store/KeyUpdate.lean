/-
# Key updates

A client catches up with a server's log by asking for the entries from a timestamp on. It gets
their keys, and one bit for every entry that tells whether the key was deleted. Rows are not
sent: they are read privately later.

Ascending keys are sent as a Rice code, and other keys as they are. The bits are left out if no
entry is a deletion. A client that asks for entries from before the end of the compacted prefix is
told to drop what it knows, and gets the whole log.
-/

import PrivateRetrieval.Bits.Rice
import PrivateRetrieval.Store.Log

namespace PrivateRetrieval

/-- Asks for the entries that a client has not seen. -/
structure KeyUpdateRequest where
  /-- The end of the compacted prefix, as far as the client knows. -/
  defragmented : Nat
  /-- The timestamp of the first entry that the client has not seen. -/
  next : Nat
  deriving DecidableEq, Repr

/-- The keys of the entries from a timestamp on. The fields are as they arrive, so they need not
fit together. -/
structure KeyUpdate where
  /-- The timestamp of the first entry. -/
  initial : Nat
  /-- The end of the compacted prefix. -/
  defragmented : Nat
  /-- The keys, unless they are coded. -/
  keys : List Key
  /-- The keys in code, if they ascend. -/
  coded : Option Rice
  /-- One bit for every entry, set for deletions; no bits if there are no deletions. -/
  deletions : List UInt8
  /-- The length of a row. -/
  rowLength : Nat
  /-- Whether the client must drop what it knows. -/
  dropHistory : Bool
  deriving DecidableEq, Repr

namespace KeyUpdate

/-- One bit for every entry, set for deletions. -/
def deletionBits {ρ : Type} (entries : List (Entry ρ)) : List UInt8 :=
  if entries.any Entry.isDeletion then Bits.pack (entries.map Entry.isDeletion) else []

/-- The entries that a server tells a client about. -/
def selection {ρ : Type} (log : Log ρ) (request : KeyUpdateRequest) : List (Entry ρ) :=
  if request.next < log.defragmented then log.entries else log.since request.next

/-- The update with which a server that has a log answers. -/
def ofLog {ρ : Type} (log : Log ρ) (rowLength : Nat) (request : KeyUpdateRequest) :
    Outcome KeyUpdate := do
  let entries := selection log request
  let keys := entries.map Entry.key
  let ascending := Rice.isAscending keys
  let coded ← if ascending then Rice.encode keys else pure none
  return {
    initial := log.next - entries.length
    defragmented := log.defragmented
    keys := if ascending then [] else keys
    coded
    deletions := deletionBits entries
    rowLength
    dropHistory := decide (request.next < log.defragmented) }

/-- How many bytes the keys and bits of an update take. The bits that come with coded keys are not
counted. -/
def byteCount (update : KeyUpdate) : Nat :=
  match update.coded with
  | some coded => coded.data.length
  | none => 4 * update.keys.length + update.deletions.length

/-- The keys of an update. -/
def decodedKeys (update : KeyUpdate) : Outcome (List Key) :=
  match update.coded with
  | some coded => coded.decode
  | none => .ok update.keys

/-- The entry of a key and the bit that tells whether it was deleted. -/
def entryOf (key : Key) (deleted : Bool) : Entry Unit :=
  if deleted then .delete key else .put key ()

/-- The entries that an update is about. There must be a bit for every key if there are any bits.
Bits beyond the last key are ignored. -/
def entries (update : KeyUpdate) : Outcome (List (Entry Unit)) := do
  let keys ← update.decodedKeys
  if update.deletions.isEmpty then return keys.map fun key => .put key ()
  if update.deletions.length < Bits.byteCount keys.length then throw .unexpectedResponse
  return List.zipWith entryOf keys (Bits.unpack update.deletions)

end KeyUpdate

end PrivateRetrieval
