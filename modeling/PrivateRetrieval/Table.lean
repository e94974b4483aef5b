/-
# Tables of rows

A table is a list of rows of one length. Servers answer from a table or from a range of its rows,
which is again a table, so a query does not know whether it runs on the whole. The equal length of
the rows is kept in the type: adding rows bytewise never meets two lengths inside a table.

Rows of length zero carry nothing and are not counted. A table for such rows accepts them and stays
empty.
-/

import PrivateRetrieval.Failure

namespace PrivateRetrieval

/-- The bytes of a row. -/
abbrev Row := List UInt8

namespace Row

/-- The row of so many zero bytes. -/
def zero (length : Nat) : Row := List.replicate length 0

/-- The bytewise sum of two rows. It is as long as the shorter one. -/
def xor (left right : Row) : Row := List.zipWith (· ^^^ ·) left right

/-- The bytewise sum of two rows of one length. Different lengths mean that the caller mixed up two
tables. -/
def xor? (left right : Row) : Outcome Row :=
  if left.length = right.length then .ok (xor left right) else .error (.breach .unequalLengths)

/-- Add a row to a part of some bytes, which must be as long as the row. -/
def addAt (bytes : Row) (first last : Nat) (row : Row) : Outcome Row :=
  if last < first ∨ bytes.length < last then .error (.breach .columnOutOfRange)
  else do
    let part ← xor? ((bytes.take last).drop first) row
    return bytes.take first ++ part ++ bytes.drop last

/-- The bytewise sum of rows of one length. -/
def sum (length : Nat) (rows : List Row) : Row := rows.foldl xor (zero length)

@[simp]
theorem length_zero (length : Nat) : (zero length).length = length := by simp [zero]

theorem length_xor {left right : Row} (equal : left.length = right.length) :
    (xor left right).length = right.length := by
  simp [xor, equal]

theorem xor_comm (left right : Row) : xor left right = xor right left := by
  induction left generalizing right with
  | nil => cases right <;> rfl
  | cons byte rest ih =>
      cases right with
      | nil => rfl
      | cons other others =>
          have tail : List.zipWith (· ^^^ ·) rest others =
              List.zipWith (· ^^^ ·) others rest := ih others
          simp [xor, UInt8.xor_comm, tail]

theorem xor_assoc (first second third : Row) :
    xor (xor first second) third = xor first (xor second third) := by
  induction first generalizing second third with
  | nil => rfl
  | cons byte rest ih =>
      cases second with
      | nil => rfl
      | cons other others =>
          cases third with
          | nil => rfl
          | cons last lasts =>
              have tail := ih others lasts
              simp only [xor] at tail
              simp [xor, UInt8.xor_assoc, tail]

theorem xor_self (row : Row) : xor row row = zero row.length := by
  simp [xor, zero, List.map_const']

theorem xor_zero {row : Row} {length : Nat} (equal : row.length = length) :
    xor row (zero length) = row := by
  subst equal
  induction row with
  | nil => rfl
  | cons byte rest ih =>
      simp only [xor, zero] at ih
      simp [xor, zero, ih, List.replicate_succ]

end Row

/-- How many rows a table has and how long each is. -/
structure Shape where
  rowCount : Nat
  rowLength : Nat
  deriving DecidableEq, Repr, Inhabited

/-- Rows of one length. -/
structure Table where
  /-- The length of every row. -/
  rowLength : Nat
  /-- The rows in order. -/
  rows : Array Row
  /-- Every row has the length of the table. -/
  uniform : ∀ row ∈ rows, row.length = rowLength
  /-- A table that has rows has rows of a positive length. -/
  rowLength_pos : rows.size ≠ 0 → 0 < rowLength

namespace Table

/-- The table without rows, for rows of a given length. -/
def empty (rowLength : Nat) : Table where
  rowLength
  rows := #[]
  uniform := by simp
  rowLength_pos := by simp

/-- How many rows the table has. -/
def rowCount (table : Table) : Nat := table.rows.size

/-- The shape of the table. -/
def shape (table : Table) : Shape := ⟨table.rowCount, table.rowLength⟩

/-- Add a row at the end. A row of another length is refused. -/
def push (table : Table) (row : Row) : Outcome Table :=
  if fits : row.length = table.rowLength then
    if positive : 0 < table.rowLength then
      .ok
        { rowLength := table.rowLength
          rows := table.rows.push row
          uniform := by
            intro other member
            rcases Array.mem_push.1 member with old | rfl
            · exact table.uniform other old
            · exact fits
          rowLength_pos := fun _ => positive }
    else .ok table
  else .error (.rowLengthMismatch table.rowLength row.length)

/-- Add rows at the end, in order. -/
def pushAll (table : Table) (rows : List Row) : Outcome Table := rows.foldlM push table

/-- Add rows at the end, in order, up to the first one that is refused. -/
def pushUntilRefused (table : Table) : List Row → Outcome Unit × Table
  | [] => (.ok (), table)
  | row :: rest =>
      match table.push row with
      | .ok table => table.pushUntilRefused rest
      | .error failure => (.error failure, table)

/-- The table of the given rows, whose length is that of the first one. -/
def ofRows (rows : List Row) : Outcome Table :=
  (empty ((rows.head?.map List.length).getD 0)).pushAll rows

/-- The row at an index. -/
def row (table : Table) (index : Nat) : Outcome Row :=
  if inside : index < table.rows.size then .ok table.rows[index]
  else .error (.indexOutOfBounds index table.rowCount)

/-- The rows from one index up to another one, as a table. -/
def slice (table : Table) (first last : Nat) : Outcome Table :=
  if last < first ∨ table.rowCount < last then
    .error (.indexOutOfBounds (max last first) table.rowCount)
  else
    .ok
      { rowLength := table.rowLength
        rows := table.rows.extract first last
        uniform := fun other member =>
          table.uniform other (by
            obtain ⟨place, inside, rfl⟩ := Array.mem_iff_getElem.1 member
            simp)
        rowLength_pos := fun filled => table.rowLength_pos (by
          intro none
          apply filled
          simp [none]) }

/-- The bytewise sum of the rows at some indices. The first index that is no row is reported. -/
def xorRows (table : Table) (indices : List Nat) : Outcome Row :=
  indices.foldlM (fun sum index => do sum.xor? (← table.row index)) (Row.zero table.rowLength)

end Table

end PrivateRetrieval
