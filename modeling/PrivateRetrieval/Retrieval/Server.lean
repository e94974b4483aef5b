/-
# The servers' side

A server holds a table and answers requests about it. It keeps nothing between requests, and no
request can make it fail otherwise than by refusing: every index and length in a message is checked
against the table before it is used.
-/

import PrivateRetrieval.Retrieval.Message
import PrivateRetrieval.Retrieval.Size

namespace PrivateRetrieval

namespace Table

/-- The sums of the sets that a seed derives over the table. -/
def setSums (table : Table) (seed : Label) (multiplier : Nat) : Outcome SetSums := do
  if supportsSets table.rowCount then
    let setSize := setSizeFor table.rowCount
    let generator ← SetGenerator.make seed 0 table.rowCount setSize
    let (sets, _) ← SetGenerator.freshMany (setCount multiplier table.rowCount setSize) generator
    let sums ← sets.mapM fun set => table.xorRows set.elements
    return { shape := table.shape, setSize, seed, sums }
  else throw .invalidConfiguration

/-- The hint that a request asks for. -/
def hint (table : Table) : HintRequest → Outcome Hint
  | .puncturedSets seed multiplier => .puncturedSets <$> table.setSums seed multiplier
  | .pointFunction => .ok (.pointFunction table.shape)
  | .matrix => .ok (.matrix table.shape)
  | .plain => .ok (.plain table.shape)

/-- The answer to a query for a punctured set. The set must fit the table and its own fields must
fit together before it is evaluated. -/
def answerSet (table : Table) (query : SetQuery) : Outcome SetAnswer := do
  let set := query.set
  let fullSize := set.size + 1
  if table.rowCount < set.domain then
    throw (.indexOutOfBounds set.domain table.rowCount)
  else if set.domain < fullSize ∨ fullSize ≤ set.hole ∨
      set.copath.length ≠ treeHeight fullSize then
    throw .malformedRequest
  else
    let sum ← table.xorRows (← set.elements)
    let extra ← table.row query.extra
    return ⟨sum, extra⟩

/-- The answer to a share of a point function: the sum of the rows at which the share's bit is
set. -/
def answerShare (table : Table) (share : PointShare) : Outcome Row := do
  if share.corrections.length ≠ treeHeight table.rowCount then throw .malformedRequest
  else
    let bitmap ← share.mark ShareNode.expand table.rowCount
    table.xorRows (← (List.range table.rowCount).filterM (Bits.bitAt bitmap))

/-- Add a line of the table, arranged with a given width, to an answer. The last line may be short
of rows, and what it lacks is not added. -/
def addLine (table : Table) (width line : Nat) (answer : Row) : Outcome Row := do
  let first := line * width
  let last := min (first + width) table.rowCount
  (List.range (last - first)).foldlM (fun answer column => do
    answer.addAt (column * table.rowLength) ((column + 1) * table.rowLength)
      (← table.row (first + column))) answer

/-- The sum of the selected lines. -/
def answerLines (table : Table) (lines : List Bool) : Outcome Row :=
  let grid := table.shape.grid
  if lines.length = grid.height then
    lines.zipIdx.foldlM (fun answer (chosen, line) =>
      if chosen then table.addLine grid.width line answer else .ok answer)
      (Row.zero (grid.width * table.rowLength))
  else .error .malformedRequest

/-- The answer to a query. -/
def answer (table : Table) : Query → Outcome Answer
  | .puncturedSets query => .puncturedSets <$> table.answerSet query
  | .pointFunction share => .pointFunction <$> table.answerShare share
  | .matrix lines => .matrix <$> table.answerLines lines
  | .plain index => .plain <$> table.row index

end Table

end PrivateRetrieval
