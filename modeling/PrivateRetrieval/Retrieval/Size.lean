/-
# Sizes derived from the shape of a table

The client and the servers derive the same sizes from the shape of a table, each on its own. Both
sizes are square roots in binary64 arithmetic: the size of the sets of the punctured scheme, and
the arrangement of the rows in lines for the matrix scheme.
-/

import PrivateRetrieval.Number.Binary64
import PrivateRetrieval.Table

namespace PrivateRetrieval

/-- The size of the sets over a table of so many rows: the square root, rounded to the nearest
integer. -/
def setSizeFor (rowCount : Nat) : Nat :=
  Binary64.roundHalfUp (Binary64.sqrt (Binary64.ofNat rowCount))

/-- Whether a table of so many rows is large enough for sets of two elements. A smaller set leaves
nothing when it is punctured. -/
def supportsSets (rowCount : Nat) : Bool := decide (2 ≤ setSizeFor rowCount)

/-- The number of sets, over the number of sets that would cover the table once: the security
parameter 128 times the natural logarithm of 2, rounded down. -/
def setMultiplier : Nat := 88

/-- How many sets a hint covers. -/
def setCount (multiplier rowCount setSize : Nat) : Nat := multiplier * rowCount / setSize

/-- An arrangement of rows in lines. -/
structure Grid where
  /-- How many rows a line has. -/
  width : Nat
  /-- How many lines there are, the last of which may be short. -/
  height : Nat
  deriving DecidableEq, Repr

/-- The arrangement of a table in which a line and a column of lines take about equally many
bytes. -/
def Shape.grid (shape : Shape) : Grid :=
  if shape.rowCount = 0 ∨ shape.rowLength = 0 then ⟨1, shape.rowCount⟩
  else
    let side := Binary64.sqrt (Binary64.ofNat (shape.rowCount * shape.rowLength))
    let rows := Binary64.nearest (side / (Binary64.ofNat shape.rowLength : Rat))
    let width := max rows.ceil.toNat 1
    ⟨width, (shape.rowCount - 1) / width + 1⟩

end PrivateRetrieval
