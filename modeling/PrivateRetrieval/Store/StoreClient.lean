/-
# Clients of a key-value store

A client keeps a copy of the servers' log without the rows, the positions that follow from it, and
the layers. It catches up by asking the left server for the entries that it has not seen. If the
server has compacted its log meanwhile, the client compacts its own copy up to the same end, which
gives the same log; or, if the part that was compacted reaches beyond what the client has seen, it
drops what it knows and takes the server's log as it is.

A key is read in the position that the client knows, so a read is right as long as the servers have
not compacted since the client caught up.
-/

import PrivateRetrieval.Store.Layers
import PrivateRetrieval.Store.Replica

namespace PrivateRetrieval

/-- How a client works. -/
structure ClientConfiguration where
  /-- The scheme of the layers. -/
  scheme : Scheme := .puncturedSets
  /-- The smallest capacity of a layer, unless it is the default one. -/
  smallest : Option Nat := none
  /-- Whether the two servers are asked at the same time. The answers do not depend on it. -/
  concurrent : Bool := false
  deriving DecidableEq, Repr

/-- What a client has done. -/
structure Statistics where
  /-- How many bytes of key updates came in. -/
  keyUpdateBytes : Nat := 0
  /-- How many hints of layers were asked for. -/
  hintRequests : Nat := 0
  /-- How many reads were sent to the servers. -/
  reads : Nat := 0
  /-- How often the client was told to drop what it knew. -/
  fullResets : Nat := 0
  deriving DecidableEq, Repr

/-- A client of a key-value store. -/
structure StoreClient where
  configuration : ClientConfiguration
  layers : Layers
  /-- The servers' log, as far as the client knows it. -/
  log : Log Unit
  /-- Where the rows of the live keys are. -/
  positions : Positions
  statistics : Statistics

/-- How many entries put a row. -/
def additionCount {ρ : Type} (entries : List (Entry ρ)) : Nat :=
  entries.countP fun entry => !entry.isDeletion

namespace StoreClient

/-- A client that knows nothing yet. -/
def make (configuration : ClientConfiguration) : Outcome StoreClient := do
  let smallest := configuration.smallest.getD Layers.defaultSmallest
  if positive : 0 < smallest then
    return {
      configuration
      layers := Layers.empty configuration.scheme smallest positive
      log := .empty
      positions := .empty
      statistics := {} }
  else throw .invalidConfiguration

/-- The live keys in ascending order. -/
def keys (client : StoreClient) : List Key := client.positions.keys

/-- How many rows the client knows of, live or dead. -/
def rowCount (client : StoreClient) : Nat := client.positions.rowCount

/-- How many bytes the client keeps. With the punctured scheme this is what the layers keep, 32
bits for every live key, and one bit for every row to tell the dead ones. The other schemes keep
no hints, so only the coded live keys count. -/
def storageBytes (client : StoreClient) : Outcome Nat := do
  if client.layers.scheme = .puncturedSets then
    let footprint := client.layers.footprint
    let bits := client.positions.liveCount * (footprint.bitsPerKey + 32) + client.rowCount
    return bits / 8 + footprint.bytes
  else
    let coded ← Rice.encode (Rice.sorted client.keys)
    return (coded.map fun coded => coded.data.length).getD 0

/-- Drop everything but the layers' configuration, and begin with an empty log. -/
def forget (client : StoreClient) (log : Log Unit) : StoreClient :=
  { client with log, positions := .empty, layers := client.layers.reset }

/-- The client when it is told to drop what it knows. -/
def dropHistory (client : StoreClient) (update : KeyUpdate) : StoreClient :=
  if update.dropHistory then
    { client.forget (.startingAt update.initial update.defragmented) with
      statistics.fullResets := client.statistics.fullResets + 1 }
  else client

/-- Take up entries that continue the log. If the servers have compacted further than the client,
the client compacts as far, and all rows must be placed in layers anew. Returned is how many rows
must be placed. -/
def takeUp (client : StoreClient) (entries : List (Entry Unit)) (defragmented : Nat) :
    Nat × StoreClient :=
  if client.log.defragmented < defragmented then
    let log := (client.log.compact (defragmented - client.log.initial)).append entries
    (additionCount log.entries,
      { client.forget log with positions := Positions.empty.replay log.entries })
  else
    (additionCount entries,
      { client with
        log := client.log.append entries
        positions := client.positions.replay entries })

/-- Process an update. Returned is how many rows must be placed in layers. An update that does not
continue the client's log, or does not decode, is refused; the order to drop what the client knows
is followed in any case. -/
def process (client : StoreClient) (update : KeyUpdate) : Outcome Nat × StoreClient :=
  let client := client.dropHistory update
  if update.initial ≠ client.log.next then (.error .unexpectedResponse, client)
  else
    let received := client.statistics.keyUpdateBytes + update.byteCount
    let client := { client with statistics.keyUpdateBytes := received }
    match update.entries with
    | .error failure => (.error failure, client)
    | .ok entries =>
        let (count, client) := client.takeUp entries update.defragmented
        (.ok count, client)

/-- The request for what the client has not seen. -/
def updateRequest (client : StoreClient) : KeyUpdateRequest :=
  ⟨client.log.defragmented, client.log.next⟩

end StoreClient

end PrivateRetrieval
