/-
# Servers of a key-value store

A server keeps the rows of its log in a table, one row for every entry that puts one, in the
order of the log. Rows that were overwritten or deleted stay where they are until the log is
compacted, so between compactions the table only grows at its end, and what a client knows about
positions stays right.

The log is compacted when it has more entries than a given number of times the live keys. First its
older half is compacted, and at least the prefix that was compacted before; if that is not enough,
all of it.
-/

import PrivateRetrieval.Number.Binary64
import PrivateRetrieval.Store.KeyUpdate
import PrivateRetrieval.Store.Message
import PrivateRetrieval.Store.Positions

namespace PrivateRetrieval

/-- How many log entries there may be for every live key. -/
inductive Ratio
  | finite (value : Rat)
  | infinite
  /-- No number at all, as a division of zero by zero gives. -/
  | undefined
  deriving DecidableEq, Repr

namespace Ratio

/-- Whether a server can work with a ratio. With less than one entry for a live key it could not
keep its rows. -/
def isValid : Ratio → Bool
  | .finite value => decide (1 ≤ value)
  | .infinite => true
  | .undefined => false

/-- Whether there are more entries than a ratio allows. The bound is computed in binary64
arithmetic, so it is rounded. -/
def isExceeded (ratio : Ratio) (entries live : Nat) : Bool :=
  match ratio with
  | .finite value =>
      decide
        (Binary64.nearest (value * (Binary64.ofNat live : Rat)) < (Binary64.ofNat entries : Rat))
  | .infinite | .undefined => false

end Ratio

/-- How a server works. -/
structure ServerConfiguration where
  /-- When the log is compacted. -/
  ratio : Ratio := .finite 4
  /-- Whether rows may be added and deleted. -/
  updatable : Bool := true
  deriving DecidableEq, Repr

/-- A server of a key-value store. -/
structure KeyServer where
  configuration : ServerConfiguration
  /-- Where the rows of the live keys are in the table. -/
  positions : Positions
  table : Table
  log : Log Row

namespace KeyServer

/-- The server without rows. -/
def empty (configuration : ServerConfiguration) : KeyServer :=
  { configuration, positions := .empty, table := .empty 0, log := .empty }

/-- How many keys are live. -/
def keyCount (server : KeyServer) : Nat := server.positions.liveCount

/-- How many rows there are, live or dead. -/
def rowCount (server : KeyServer) : Nat := server.table.rowCount

/-- How many entries the log has. -/
def entryCount (server : KeyServer) : Nat := server.log.entries.length

/-- The live keys in ascending order. -/
def keys (server : KeyServer) : List Key := server.positions.keys

/-- The row of a key. -/
def row (server : KeyServer) (key : Key) : Outcome Row :=
  match server.positions.find? key with
  | some position => server.table.row position
  | none => .error (.keyNotFound key)

/-- The entries that put rows under keys, in the order of the keys. Rows under one key keep their
order, so the last one wins. -/
def batch (keys : List Key) (rows : List Row) : List (Entry Row) :=
  (List.zipWith Entry.put keys rows).mergeSort fun left right => decide (left.key ≤ right.key)

/-- Put rows under keys. The rows must have the length of those that are there. A server without
rows takes rows of any one length. -/
def insert (server : KeyServer) (keys : List Key) (rows : List Row) : Outcome KeyServer := do
  if keys.length ≠ rows.length then throw .invalidConfiguration
  match rows with
  | [] => return server
  | first :: _ =>
      let table := if server.table.rowCount = 0 then Table.empty first.length else server.table
      if let some row := rows.find? (·.length ≠ table.rowLength) then
        throw (.rowLengthMismatch table.rowLength row.length)
      let entries := batch keys rows
      let table ← table.pushAll (entries.filterMap Entry.row?)
      return { server with
        table
        positions := server.positions.replay entries
        log := server.log.append entries }

/-- Whether the log has more entries than it may have. -/
def isOverBound (server : KeyServer) : Bool :=
  server.configuration.ratio.isExceeded server.entryCount server.keyCount

/-- The log after compaction. -/
def compactedLog (server : KeyServer) : Log Row :=
  let count := max (server.entryCount / 2) server.log.compactedCount
  let log := server.log.compact count
  if server.configuration.ratio.isExceeded log.entries.length server.keyCount then
    log.compact log.entries.length
  else log

/-- Compact the log if it has too many entries, and lay out the rows anew. -/
def compactIfOverBound (server : KeyServer) : Outcome Unit × KeyServer :=
  if server.isOverBound then
    let log := server.compactedLog
    let (result, table) := (Table.empty server.table.rowLength).pushUntilRefused
      (log.entries.filterMap Entry.row?)
    match result with
    | .error failure => (.error failure, { server with table, log })
    | .ok () =>
        (.ok (), { server with table, log, positions := Positions.empty.replay log.entries })
  else (.ok (), server)

/-- A server that has rows under keys. -/
def make (configuration : ServerConfiguration) (keys : List Key) (rows : List Row) :
    Outcome KeyServer := do
  if !configuration.ratio.isValid then throw .invalidConfiguration
  let server ← (empty configuration).insert keys rows
  match server.compactIfOverBound with
  | (.ok (), server) => return server
  | (.error failure, _) => throw failure

/-- Put rows under keys. A key that is there already gets the new row. -/
def add (server : KeyServer) (keys : List Key) (rows : List Row) : Outcome Unit × KeyServer :=
  if server.configuration.updatable then
    match server.insert keys rows with
    | .ok server => server.compactIfOverBound
    | .error failure => (.error failure, server)
  else (.error .notUpdatable, server)

/-- Delete keys. Keys that are not there are noted in the log all the same. -/
def delete (server : KeyServer) (keys : List Key) : Outcome Unit × KeyServer :=
  if server.configuration.updatable then
    let entries : List (Entry Row) := keys.map Entry.delete
    compactIfOverBound { server with
      positions := server.positions.replay entries
      log := server.log.append entries }
  else (.error .notUpdatable, server)

/-- The entries that a client has not seen. -/
def keyUpdate (server : KeyServer) (request : KeyUpdateRequest) : Outcome KeyUpdate :=
  KeyUpdate.ofLog server.log server.table.rowLength request

end KeyServer

end PrivateRetrieval
