/-
# Queries made from the shape of a table

Three schemes need no more than the shape of the table: a query is made from the row's number and
the random tape, and the row is found again in the two answers.
-/

import PrivateRetrieval.Random.Tape
import PrivateRetrieval.Retrieval.Message
import PrivateRetrieval.Retrieval.Size

namespace PrivateRetrieval

namespace Shape

/-- Whether a row's number is one of the table. -/
def check (shape : Shape) (row : Nat) : Outcome Unit :=
  if row < shape.rowCount then .ok () else .error (.indexOutOfBounds row shape.rowCount)

/-- The shares of the point function that is true at a row. -/
def sharesOf (shape : Shape) (row : Nat) (tape : Tape) : Sides PointShare × Tape :=
  let ((left, right), tape) :=
    PointShare.split ShareNode.expand row (treeHeight shape.rowCount) tape
  (⟨left, right⟩, tape)

/-- The row, from the sums of the rows that the two shares select. -/
def rowOfSums (shape : Shape) (sums : Sides Row) : Outcome Row :=
  if sums.left.length = shape.rowLength ∧ sums.right.length = shape.rowLength then
    .ok (sums.left.xor sums.right)
  else .error .unexpectedResponse

/-- Two selections of lines that differ in one line only. -/
def selectionsAround (line : Nat) (lines : List Bool) : Sides (List Bool) :=
  ⟨lines, lines.modify line not⟩

/-- Two random selections of lines that differ in the line of a row. -/
def selectionsOf (shape : Shape) (row : Nat) (tape : Tape) : Sides (List Bool) × Tape :=
  let (lines, tape) := tape.coins shape.grid.height
  (selectionsAround (row / shape.grid.width) lines, tape)

/-- The row in a column of a line, from the sums of the lines that the two selections pick. -/
def rowOfLines (shape : Shape) (column : Nat) (lines : Sides Row) : Outcome Row := do
  let width := shape.grid.width * shape.rowLength
  if lines.left.length ≠ width ∨ lines.right.length ≠ width then throw .unexpectedResponse
  let line := lines.left.xor lines.right
  if width < (column + 1) * shape.rowLength then throw (.breach .columnOutOfRange)
  return (line.drop (column * shape.rowLength)).take shape.rowLength

end Shape

end PrivateRetrieval
