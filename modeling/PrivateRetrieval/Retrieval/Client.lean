/-
# The client's side

A client is made from a hint, or from the shape of the table alone if its scheme allows that. It
turns a row's number into two queries and something to remember, and the two answers and what it
remembered into the row.

A call that is refused may still have moved the tape and the state of the client, so queries return
both in any case. Only the punctured scheme has a state that moves.
-/

import PrivateRetrieval.Retrieval.PuncturedClient
import PrivateRetrieval.Retrieval.ShapeQuery

namespace PrivateRetrieval

/-- A client of one of the schemes. -/
inductive Client
  | puncturedSets (client : PuncturedClient)
  | pointFunction (shape : Shape)
  | matrix (shape : Shape)
  | plain (shape : Shape)

/-- What a client remembers between a query and its answers. -/
inductive Pending
  | puncturedSets (pending : PendingSet)
  | pointFunction
  /-- The column of the row in its line. -/
  | matrix (column : Nat)
  | plain
  deriving DecidableEq, Repr

/-- The case of a query of the punctured scheme. -/
def Pending.case? : Pending → Option QueryCase
  | .puncturedSets pending => some pending.case
  | .pointFunction | .matrix _ | .plain => none

/-- The hint request of a client of some scheme. The punctured scheme draws the seed of its
sets. -/
def HintRequest.fresh (scheme : Scheme) (tape : Tape) : HintRequest × Tape :=
  match scheme with
  | .puncturedSets =>
      let (seed, tape) := tape.label
      (.puncturedSets seed setMultiplier, tape)
  | .pointFunction => (.pointFunction, tape)
  | .matrix => (.matrix, tape)
  | .plain => (.plain, tape)

namespace Client

/-- The client that a hint makes. -/
def ofHint : Hint → Drawing Client
  | .puncturedSets sums => .puncturedSets <$> PuncturedClient.ofHint sums
  | .pointFunction shape => pure (.pointFunction shape)
  | .matrix shape => pure (.matrix shape)
  | .plain shape => pure (.plain shape)

/-- The client of a scheme whose hint is the shape of the table. -/
def withoutHint (scheme : Scheme) (shape : Shape) : Outcome Client :=
  match scheme with
  | .puncturedSets => .error .invalidConfiguration
  | .pointFunction => .ok (.pointFunction shape)
  | .matrix => .ok (.matrix shape)
  | .plain => .ok (.plain shape)

/-- The scheme of a client. -/
def scheme : Client → Scheme
  | .puncturedSets _ => .puncturedSets
  | .pointFunction _ => .pointFunction
  | .matrix _ => .matrix
  | .plain _ => .plain

/-- How many rows the table has, as far as the client knows. -/
def rowCount : Client → Nat
  | .puncturedSets client => client.rowCount
  | .pointFunction shape | .matrix shape | .plain shape => shape.rowCount

/-- The queries for a row, and what to remember until they are answered. -/
def query (client : Client) (row : Nat) (tape : Tape) :
    Outcome (Sides Query × Pending) × Client × Tape :=
  match client with
  | .puncturedSets inner =>
      let (result, inner, tape) := inner.query row tape
      let result := result.map fun (queries, pending) =>
        (queries.map .puncturedSets, .puncturedSets pending)
      (result, .puncturedSets inner, tape)
  | .pointFunction shape =>
      match shape.check row with
      | .error failure => (.error failure, client, tape)
      | .ok () =>
          let (shares, tape) := shape.sharesOf row tape
          (.ok (shares.map .pointFunction, .pointFunction), client, tape)
  | .matrix shape =>
      match shape.check row with
      | .error failure => (.error failure, client, tape)
      | .ok () =>
          let (selections, tape) := shape.selectionsOf row tape
          (.ok (selections.map .matrix, .matrix (row % shape.grid.width)), client, tape)
  | .plain shape =>
      match shape.check row with
      | .error failure => (.error failure, client, tape)
      | .ok () => (.ok (Sides.both (.plain row), .plain), client, tape)

/-- Queries that look like those for a row, and whose answers nobody waits for. -/
def dummy (client : Client) (tape : Tape) : Outcome (Sides Query) × Client × Tape :=
  match client with
  | .puncturedSets inner =>
      let (result, inner, tape) := inner.dummy tape
      (result.map (·.map .puncturedSets), .puncturedSets inner, tape)
  | .pointFunction shape =>
      let (shares, tape) := shape.sharesOf 0 tape
      (.ok (shares.map .pointFunction), client, tape)
  | .matrix shape =>
      if shape.rowCount = 0 then (.ok (Sides.both (.matrix [])), client, tape)
      else
        let (selections, tape) := shape.selectionsOf 0 tape
        (.ok (selections.map .matrix), client, tape)
  | .plain _ => (.ok (Sides.both (.plain 0)), client, tape)

/-- The row that was asked for, from the answers, and the client after it. A failure leaves the
client as it was. -/
def reconstruct (client : Client) (pending : Pending) (answers : Sides Answer) :
    Outcome (Row × Client) :=
  match client, pending, answers with
  | .puncturedSets inner, .puncturedSets pending, ⟨.puncturedSets left, .puncturedSets right⟩ => do
      let (row, inner) ← inner.reconstruct pending ⟨left, right⟩
      return (row, .puncturedSets inner)
  | .pointFunction shape, .pointFunction, ⟨.pointFunction left, .pointFunction right⟩ => do
      return (← shape.rowOfSums ⟨left, right⟩, client)
  | .matrix shape, .matrix column, ⟨.matrix left, .matrix right⟩ => do
      return (← shape.rowOfLines column ⟨left, right⟩, client)
  | .plain shape, .plain, ⟨.plain left, .plain _⟩ =>
      if left.length = shape.rowLength then .ok (left, client) else .error .unexpectedResponse
  | _, _, _ => .error .unexpectedResponse

/-- What a client keeps: so many bits for every live key of a store on top of it, and so many bytes
besides. -/
structure Footprint where
  bitsPerKey : Nat
  bytes : Nat
  deriving DecidableEq, Repr

/-- What a client keeps. The punctured scheme notes a slot for every row, and keeps the hints. -/
def footprint : Client → Footprint
  | .puncturedSets client =>
      ⟨Nat.log2 client.stored.size, client.stored.size * client.rowLength⟩
  | .pointFunction _ | .matrix _ | .plain _ => ⟨0, 0⟩

end Client

end PrivateRetrieval
