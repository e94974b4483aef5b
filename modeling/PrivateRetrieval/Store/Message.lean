/-
# Messages about layers

The rows of a store are split into ranges, the layers, and each layer is a table of its own. A
client asks for the hint of one layer, and reads a row by sending one query to every layer, so that
the servers do not learn in which layer the row is.
-/

import PrivateRetrieval.Retrieval.Server

namespace PrivateRetrieval

/-- Asks for the hint of a range of rows. -/
structure LayerHintRequest where
  request : HintRequest
  /-- The first row of the range. -/
  first : Nat
  /-- How many rows the range has. -/
  count : Nat
  deriving DecidableEq, Repr

/-- One query for every layer, and the boundaries between the layers. -/
structure LayeredQuery where
  /-- The queries, in the order of the layers. -/
  queries : List Query
  /-- The first row of every layer, and the end of the last one. -/
  boundaries : List Nat
  deriving DecidableEq, Repr

namespace Table

/-- The largest row number that a message can name. -/
def maxRow : Nat := UInt64.size - 1

/-- The hint of a range of rows. -/
def layerHint (table : Table) (request : LayerHintRequest) : Outcome Hint := do
  let last := request.first + request.count
  if maxRow < last then throw .malformedRequest
  (← table.slice request.first last).hint request.request

/-- The answers to queries for ranges that lie next to each other. The first failure is
reported. -/
def answerRanges (table : Table) : List Query → List Nat → Outcome (List Answer)
  | query :: queries, first :: last :: boundaries => do
      let answer ← (← table.slice first last).answer query
      return answer :: (← table.answerRanges queries (last :: boundaries))
  | _, _ => .ok []

/-- The answers to one query for every layer. -/
def layerAnswer (table : Table) (query : LayeredQuery) : Outcome (List Answer) :=
  if query.boundaries.length = query.queries.length + 1 then
    table.answerRanges query.queries query.boundaries
  else .error .malformedRequest

end Table

end PrivateRetrieval
