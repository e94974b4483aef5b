/-
# A reader of a fixed table

A client together with the two servers it reads from. The left server gives the hint. Both servers
hold a replica of the table; nothing is promised if the replicas differ.
-/

import PrivateRetrieval.Retrieval.Client
import PrivateRetrieval.Retrieval.Server

namespace PrivateRetrieval

/-- A client and its two servers. -/
structure Reader where
  servers : Sides Table
  /-- The client, once a hint was fetched. -/
  client : Option Client

namespace Reader

/-- A reader without a hint. -/
def ofServers (servers : Sides Table) : Reader := ⟨servers, none⟩

/-- Fetch a hint for a scheme. -/
def prepare (reader : Reader) (scheme : Scheme) (tape : Tape) : Outcome Unit × Reader × Tape :=
  let (request, tape) := HintRequest.fresh scheme tape
  match reader.servers.left.hint request with
  | .error failure => (.error failure, reader, tape)
  | .ok hint =>
      match Client.ofHint hint tape with
      | .error failure => (.error failure, reader, tape)
      | .ok (client, tape) => (.ok (), { reader with client := some client }, tape)

/-- The answers of the two servers, the left one first. -/
def answers (servers : Sides Table) (queries : Sides Query) : Outcome (Sides Answer) := do
  return ⟨← servers.left.answer queries.left, ← servers.right.answer queries.right⟩

/-- Read a row. -/
def read (reader : Reader) (row : Nat) (tape : Tape) : Outcome Row × Reader × Tape :=
  match reader.client with
  | none => (.error .noHint, reader, tape)
  | some client =>
      let (result, client, tape) := client.query row tape
      let (result, client) := settle client do
        let (queries, pending) ← result
        client.reconstruct pending (← answers reader.servers queries)
      (result, { reader with client := some client }, tape)

end Reader

end PrivateRetrieval
