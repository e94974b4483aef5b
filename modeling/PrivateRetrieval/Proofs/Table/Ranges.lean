/-
# Ranges of tables

A range of a table is a table of its own. A table that grows at its end keeps its ranges, so who
knows a range does not notice rows that were added later.
-/

import PrivateRetrieval.Proofs.Table.Sums

namespace PrivateRetrieval.Table

/-- A table begins with the rows of another one. -/
def Precedes (before after : Table) : Prop := before.rows.toList <+: after.rows.toList

variable {table before after : Table}

theorem precedes_empty (rowLength : Nat) (table : Table) : (empty rowLength).Precedes table :=
  List.nil_prefix

theorem Precedes.rowCount_le (precedes : before.Precedes after) :
    before.rowCount ≤ after.rowCount := by
  rw [rowCount_eq, rowCount_eq]
  exact precedes.length_le

theorem Precedes.rowAt (precedes : before.Precedes after) {index : Nat}
    (inside : index < before.rowCount) : after.rowAt index = before.rowAt index := by
  obtain ⟨more, isMore⟩ := precedes
  rw [rowCount_eq] at inside
  rw [Table.rowAt, Table.rowAt, ← isMore, List.getD_append _ _ _ _ inside]

/-- Tables that share a row have rows of one length. -/
theorem Precedes.rowLength (precedes : before.Precedes after) (filled : 0 < before.rowCount) :
    after.rowLength = before.rowLength := by
  have filledAfter := filled.trans_le precedes.rowCount_le
  rw [← length_rowAt filled, ← length_rowAt filledAfter, precedes.rowAt filled]

/-- A table that has a range. -/
theorem exists_slice {first last : Nat} (ordered : first ≤ last) (inside : last ≤ table.rowCount) :
    ∃ range, table.slice first last = .ok range ∧ range.rowLength = table.rowLength ∧
      range.rows = table.rows.extract first last ∧ range.rowCount = last - first := by
  have isRange : ¬ (last < first ∨ table.rowCount < last) := by omega
  rw [slice, if_neg isRange]
  refine ⟨_, rfl, rfl, rfl, ?_⟩
  have inside : last ≤ table.rows.size := inside
  rw [rowCount, Array.size_extract, Nat.min_eq_left inside]

/-- Only ranges within the table are given. -/
theorem of_slice {first last : Nat} {range : Table} (given : table.slice first last = .ok range) :
    first ≤ last ∧ last ≤ table.rowCount := by
  rw [slice] at given
  split at given
  · cases given
  · omega

theorem rowAt_of_slice {first last index : Nat} {range : Table}
    (given : table.slice first last = .ok range) (inside : first + index < last) :
    range.rowAt index = table.rowAt (first + index) := by
  obtain ⟨ordered, within⟩ := of_slice given
  obtain ⟨range', given', -, rows, -⟩ := exists_slice ordered within
  obtain rfl : range = range' := Except.ok.inj (given.symm.trans given')
  rw [Table.rowAt, Table.rowAt, rows, Array.toList_extract, List.extract_eq_take_drop,
    List.getD_eq_getElem?_getD, List.getD_eq_getElem?_getD, List.getElem?_take_of_lt (by omega),
    List.getElem?_drop]

/-- A range that has rows is the same after the table grew. -/
theorem Precedes.slice (precedes : before.Precedes after) {first last : Nat}
    (filled : first < last) (inside : last ≤ before.rowCount) :
    after.slice first last = before.slice first last := by
  have insideAfter := inside.trans precedes.rowCount_le
  obtain ⟨range, given, rowLength, rows, -⟩ := exists_slice filled.le inside
  obtain ⟨range', given', rowLength', rows', -⟩ := exists_slice filled.le insideAfter
  rw [given, given']
  congr 1
  refine ext ?_ ?_
  · rw [rowLength, rowLength', precedes.rowLength (by omega)]
  · rw [rows, rows']
    rw [rowCount_eq] at inside
    obtain ⟨more, isMore⟩ := precedes
    rw [Array.toList_extract, Array.toList_extract, ← isMore, List.extract_eq_take_drop,
      List.extract_eq_take_drop, List.drop_append_of_le_length (by omega),
      List.take_append_of_le_length (by rw [List.length_drop]; omega)]

theorem Precedes.trans (first : before.Precedes table) (second : table.Precedes after) :
    before.Precedes after :=
  List.IsPrefix.trans first second

/-- So many first rows of a table, after those of a table that it continues. -/
theorem Precedes.exists_first (precedes : before.Precedes table) {count : Nat}
    (more : before.rowCount ≤ count) (inside : count ≤ table.rowCount) :
    ∃ range : Table, before.Precedes range ∧ range.Precedes table ∧ range.rowCount = count ∧
      range.rowLength = table.rowLength := by
  obtain ⟨range, -, rowLength, rows, rowCount⟩ := exists_slice (Nat.zero_le count) inside
  have isTake : range.rows.toList = table.rows.toList.take count := by
    rw [rows, Array.toList_extract, List.extract_eq_take_drop, Nat.sub_zero, List.drop_zero]
  refine ⟨range, ?_, ?_, rowCount, rowLength⟩
  · rw [Precedes, isTake, List.prefix_take_iff, ← rowCount_eq]
    exact ⟨precedes, more⟩
  · rw [Precedes, isTake]
    exact List.take_prefix count _

end PrivateRetrieval.Table
