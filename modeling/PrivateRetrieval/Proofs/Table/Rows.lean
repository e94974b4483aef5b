/-
# The rows of a table

A table is its row length and its list of rows. Rows that fit are added at the end without fail,
and a table answers with the row at an index.
-/

import Mathlib
import PrivateRetrieval.Table

namespace PrivateRetrieval

namespace Table

@[ext]
theorem ext {first second : Table} (rowLength : first.rowLength = second.rowLength)
    (rows : first.rows.toList = second.rows.toList) : first = second := by
  cases first
  cases second
  simp only at rowLength
  subst rowLength
  simpa using Array.toList_inj.mp rows

/-- Rows fit a table if they have its length and carry something. -/
def Fits (table : Table) (rows : List Row) : Prop :=
  ∀ row ∈ rows, row.length = table.rowLength ∧ 0 < row.length

theorem fits_rows (table : Table) : table.Fits table.rows.toList := by
  intro row member
  have length := table.uniform row (Array.mem_toList_iff.mp member)
  have filled : table.rows.size ≠ 0 := by
    intro none
    rw [Array.eq_empty_of_size_eq_zero none] at member
    cases member
  exact ⟨length, length ▸ table.rowLength_pos filled⟩

theorem push_of_fits {table : Table} {row : Row} (length : row.length = table.rowLength)
    (positive : 0 < row.length) :
    ∃ after, table.push row = .ok after ∧ after.rowLength = table.rowLength ∧
      after.rows.toList = table.rows.toList ++ [row] := by
  rw [push, dif_pos length, dif_pos (length ▸ positive)]
  exact ⟨_, rfl, rfl, Array.toList_push⟩

/-- Rows that fit are all added. -/
theorem pushAll_of_fits {table : Table} {rows : List Row} (fits : table.Fits rows) :
    ∃ after, table.pushAll rows = .ok after ∧ after.rowLength = table.rowLength ∧
      after.rows.toList = table.rows.toList ++ rows := by
  induction rows generalizing table with
  | nil => exact ⟨table, rfl, rfl, (List.append_nil _).symm⟩
  | cons row rest ih =>
      obtain ⟨length, positive⟩ := fits row List.mem_cons_self
      obtain ⟨pushed, isPushed, rowLength, rows⟩ := push_of_fits length positive
      have fitsRest : pushed.Fits rest := by
        intro other member
        rw [rowLength]
        exact fits other (List.mem_cons_of_mem _ member)
      obtain ⟨after, isAfter, rowLengthAfter, rowsAfter⟩ := ih fitsRest
      refine ⟨after, ?_, rowLengthAfter.trans rowLength, ?_⟩
      · show (table.push row >>= fun table => table.pushAll rest) = .ok after
        rw [isPushed]
        exact isAfter
      · rw [rowsAfter, rows, List.append_assoc, List.singleton_append]

/-- Adding up to a refusal is adding, where nothing is refused. -/
theorem pushUntilRefused_of_pushAll {table after : Table} {rows : List Row}
    (added : table.pushAll rows = .ok after) : table.pushUntilRefused rows = (.ok (), after) := by
  induction rows generalizing table with
  | nil =>
      cases added
      rfl
  | cons row rest ih =>
      have added : (table.push row >>= fun table => table.pushAll rest) = .ok after := added
      cases pushed : table.push row with
      | error failure =>
          rw [pushed] at added
          cases added
      | ok next =>
          rw [pushed] at added
          rw [pushUntilRefused, pushed]
          exact ih added

theorem rowCount_eq (table : Table) : table.rowCount = table.rows.toList.length := by
  rw [rowCount, Array.length_toList]

/-- A table answers with the row at an index. -/
theorem row_of_getElem? {table : Table} {index : Nat} {row : Row}
    (held : table.rows.toList[index]? = some row) : table.row index = .ok row := by
  rw [Array.getElem?_toList] at held
  obtain ⟨inside, held⟩ := Array.getElem?_eq_some_iff.mp held
  rw [Table.row, dif_pos inside, held]

theorem row_of_lt {table : Table} {index : Nat} (inside : index < table.rowCount) :
    ∃ row, table.rows.toList[index]? = some row ∧ table.row index = .ok row := by
  rw [rowCount_eq] at inside
  exact ⟨_, List.getElem?_eq_getElem inside, row_of_getElem? (List.getElem?_eq_getElem inside)⟩

end Table

end PrivateRetrieval
