/-
# Sums of rows

Rows of one length add up as in a group in which every element is its own inverse. So adding a
row twice takes it away, the sum of some rows without one of them is the whole sum plus that
row, and the sums of two selections add up to the sum of the rows in which they differ. Every
scheme finds a row by one of these laws.
-/

import PrivateRetrieval.Proofs.Table.Rows

namespace PrivateRetrieval

namespace Row

theorem zero_xor {row : Row} {length : Nat} (equal : row.length = length) :
    (zero length).xor row = row := by
  rw [xor_comm, xor_zero equal]

/-- Adding a row twice takes it away. -/
theorem xor_xor_cancel {left right : Row} (equal : left.length = right.length) :
    (left.xor right).xor right = left := by
  rw [xor_assoc, xor_self, ← equal, xor_zero rfl]

theorem length_xor_of {left right : Row} {length : Nat} (first : left.length = length)
    (second : right.length = length) : (left.xor right).length = length := by
  rw [length_xor (first.trans second.symm), second]

variable {length : Nat}

theorem foldl_xor {start : Row} {rows : List Row} (fits : start.length = length)
    (uniform : ∀ row ∈ rows, row.length = length) :
    (rows.foldl xor start).length = length ∧
      rows.foldl xor start = start.xor (sum length rows) := by
  induction rows generalizing start with
  | nil => exact ⟨fits, (xor_zero fits).symm⟩
  | cons row rest ih =>
      have rowFits := uniform row List.mem_cons_self
      have restFits := fun other member => uniform other (List.mem_cons_of_mem row member)
      obtain ⟨lengthFold, isFold⟩ := ih (length_xor_of fits rowFits) restFits
      have fromZero := (ih (length_xor_of (length_zero length) rowFits) restFits).2
      have whole : sum length (row :: rest) = ((zero length).xor row).xor (sum length rest) :=
        fromZero
      refine ⟨lengthFold, ?_⟩
      rw [List.foldl_cons, isFold, whole, zero_xor rowFits, xor_assoc]

theorem length_sum {rows : List Row} (uniform : ∀ row ∈ rows, row.length = length) :
    (sum length rows).length = length :=
  (foldl_xor (length_zero length) uniform).1

/-- A row is added to the part of some bytes that is behind so many of them. -/
theorem addAt_append {before part behind row : Row} (fits : part.length = row.length) :
    (before ++ (part ++ behind)).addAt before.length (before.length + row.length) row =
      .ok (before ++ part.xor row ++ behind) := by
  have inside : ¬ (before.length + row.length < before.length ∨
      (before ++ (part ++ behind)).length < before.length + row.length) := by
    rw [List.length_append, List.length_append]
    omega
  have taken : (before ++ (part ++ behind)).take (before.length + row.length) = before ++ part := by
    rw [← List.append_assoc, ← fits, ← List.length_append, List.take_left']
    rfl
  have dropped : (before ++ (part ++ behind)).drop (before.length + row.length) = behind := by
    rw [← List.append_assoc, ← fits, ← List.length_append, List.drop_left']
    rfl
  rw [addAt, if_neg inside, taken, dropped, List.drop_left, List.take_left, xor?, if_pos fits]
  rfl

theorem xor_append {first second third fourth : Row} (fits : first.length = third.length) :
    (first ++ second).xor (third ++ fourth) = first.xor third ++ second.xor fourth :=
  List.zipWith_append fits

theorem sum_nil : sum length [] = zero length := rfl

theorem sum_cons {row : Row} {rows : List Row}
    (uniform : ∀ other ∈ row :: rows, other.length = length) :
    sum length (row :: rows) = row.xor (sum length rows) := by
  have rowFits := uniform row List.mem_cons_self
  rw [sum, List.foldl_cons, zero_xor rowFits]
  exact (foldl_xor rowFits fun other member => uniform other (List.mem_cons_of_mem row member)).2

/-- The sum of rows is that of all but one of them, plus that one. -/
theorem sum_eraseIdx {rows : List Row} (uniform : ∀ row ∈ rows, row.length = length) {place : Nat}
    {row : Row} (held : rows[place]? = some row) :
    sum length rows = (sum length (rows.eraseIdx place)).xor row := by
  induction rows generalizing place with
  | nil => cases held
  | cons first rest ih =>
      have restFits := fun other member => uniform other (List.mem_cons_of_mem first member)
      rw [sum_cons uniform]
      cases place with
      | zero =>
          obtain rfl : first = row := Option.some.inj held
          rw [List.eraseIdx_cons_zero, xor_comm]
      | succ place =>
          have fewer : ∀ other ∈ first :: rest.eraseIdx place, other.length = length := by
            intro other member
            rcases List.mem_cons.mp member with rfl | inRest
            · exact uniform other List.mem_cons_self
            · exact restFits other (List.mem_of_mem_eraseIdx inRest)
          rw [List.eraseIdx_cons_succ, sum_cons fewer, xor_assoc,
            ih restFits (List.getElem?_cons_succ ▸ held)]

/-- The rows whose bit is set. -/
def select (bits : List Bool) (rows : List Row) : List Row :=
  (bits.zip rows).filterMap fun (chosen, row) => if chosen then some row else none

theorem select_true_cons (bits : List Bool) (row : Row) (rows : List Row) :
    select (true :: bits) (row :: rows) = row :: select bits rows := rfl

theorem select_false_cons (bits : List Bool) (row : Row) (rows : List Row) :
    select (false :: bits) (row :: rows) = select bits rows := rfl

/-- Numbers that satisfy a condition select the rows that stand for them. -/
theorem select_map (chosen : Nat → Bool) (row : Nat → Row) (numbers : List Nat) :
    select (numbers.map chosen) (numbers.map row) = (numbers.filter chosen).map row := by
  induction numbers with
  | nil => rfl
  | cons number rest ih =>
      rw [List.map_cons, List.map_cons, List.filter_cons]
      cases chosen number with
      | false => exact ih
      | true => rw [select_true_cons, ih, if_pos rfl, List.map_cons]

theorem mem_of_mem_select {bits : List Bool} {rows : List Row} {row : Row}
    (member : row ∈ select bits rows) : row ∈ rows := by
  obtain ⟨⟨chosen, other⟩, inZip, isRow⟩ := List.mem_filterMap.mp member
  cases chosen with
  | false => cases isRow
  | true =>
      obtain rfl : other = row := Option.some.inj isRow
      exact (List.of_mem_zip inZip).2

theorem length_sum_select {bits : List Bool} {rows : List Row}
    (uniform : ∀ row ∈ rows, row.length = length) :
    (sum length (select bits rows)).length = length :=
  length_sum fun row member => uniform row (mem_of_mem_select member)

theorem sum_select_true {bits : List Bool} {row : Row} {rows : List Row}
    (uniform : ∀ other ∈ row :: rows, other.length = length) :
    sum length (select (true :: bits) (row :: rows)) = row.xor (sum length (select bits rows)) := by
  apply sum_cons
  intro other member
  rcases List.mem_cons.mp member with rfl | inRest
  · exact uniform other List.mem_cons_self
  · exact uniform other (List.mem_cons_of_mem row (mem_of_mem_select inRest))

/-- The sums of two selections add up to the sum of the rows in which the selections differ. -/
theorem sum_select_xor {bits others : List Bool} {rows : List Row}
    (equal : bits.length = others.length) (uniform : ∀ row ∈ rows, row.length = length) :
    (sum length (select bits rows)).xor (sum length (select others rows)) =
      sum length (select (List.zipWith Bool.xor bits others) rows) := by
  induction bits generalizing others rows with
  | nil =>
      obtain rfl : others = [] := List.length_eq_zero_iff.mp equal.symm
      exact xor_zero (length_zero length)
  | cons bit bits ih =>
      cases others with
      | nil => cases equal
      | cons other others =>
          cases rows with
          | nil => exact xor_zero (length_zero length)
          | cons row rows =>
              have restFits := fun other member => uniform other (List.mem_cons_of_mem row member)
              have rowFits := uniform row List.mem_cons_self
              have rest := ih (Nat.succ.inj equal) restFits
              have chosen : ∀ bits : List Bool, sum length (select (true :: bits) (row :: rows)) =
                  row.xor (sum length (select bits rows)) := fun bits => sum_select_true uniform
              rw [List.zipWith_cons_cons]
              cases bit with
              | false =>
                  cases other with
                  | false => exact rest
                  | true =>
                      rw [select_false_cons, chosen others, Bool.false_xor, chosen, ← rest,
                        ← xor_assoc, xor_comm _ row, xor_assoc]
              | true =>
                  cases other with
                  | false =>
                      rw [select_false_cons, chosen bits, Bool.xor_false, chosen, ← rest, xor_assoc]
                  | true =>
                      rw [chosen bits, chosen others, Bool.xor_self, select_false_cons, ← rest,
                        xor_comm row, xor_assoc, ← xor_assoc row, xor_self, rowFits,
                        zero_xor (length_sum_select restFits)]

/-- A selection of a single row sums up to that row. -/
theorem sum_select_single {bits : List Bool} {rows : List Row} {place : Nat} {row : Row}
    (uniform : ∀ row ∈ rows, row.length = length) (held : rows[place]? = some row)
    (single : ∀ other < rows.length, bits[other]? = some (decide (other = place))) :
    sum length (select bits rows) = row := by
  induction rows generalizing bits place with
  | nil => cases held
  | cons first rest ih =>
      have firstFits := uniform first List.mem_cons_self
      have restFits := fun other member => uniform other (List.mem_cons_of_mem first member)
      cases bits with
      | nil => cases single 0 (Nat.succ_pos _)
      | cons bit bits =>
          have restBits : ∀ other < rest.length, bits[other]? = some (decide (other + 1 = place)) :=
            fun other inside => single (other + 1) (Nat.succ_lt_succ inside)
          have firstBit : bit = decide (0 = place) :=
            Option.some.inj (single 0 (Nat.succ_pos _))
          rw [firstBit]
          cases place with
          | zero =>
              obtain rfl : first = row := Option.some.inj held
              have nothing : select bits rest = [] := by
                refine List.filterMap_eq_nil_iff.mpr fun ⟨chosen, other⟩ member => ?_
                obtain ⟨index, inside, isPair⟩ := List.mem_iff_getElem.mp member
                rw [List.getElem_zip, Prod.mk.injEq] at isPair
                rw [List.length_zip] at inside
                have bit := restBits index (Nat.lt_of_lt_of_le inside (Nat.min_le_right _ _))
                rw [List.getElem?_eq_getElem (Nat.lt_of_lt_of_le inside (Nat.min_le_left _ _)),
                  isPair.1] at bit
                rw [Option.some.inj bit]
                rfl
              rw [decide_eq_true rfl, sum_select_true uniform, nothing, sum_nil, xor_zero firstFits]
          | succ place =>
              rw [decide_eq_false (Nat.succ_ne_zero place).symm, select_false_cons]
              refine ih restFits (List.getElem?_cons_succ ▸ held) fun other inside => ?_
              rw [restBits other inside]
              simp

end Row

namespace Table

/-- The row at an index, and no bytes at an index beyond the last row. -/
def rowAt (table : Table) (index : Nat) : Row := table.rows.toList.getD index []

/-- The sum of the rows at some indices. -/
def sumAt (table : Table) (indices : List Nat) : Row :=
  Row.sum table.rowLength (indices.map table.rowAt)

variable {table : Table}

theorem getElem?_rows {index : Nat} (inside : index < table.rowCount) :
    table.rows.toList[index]? = some (table.rowAt index) := by
  rw [rowCount_eq] at inside
  rw [rowAt, List.getD_eq_getElem?_getD, List.getElem?_eq_getElem inside, Option.getD_some]

theorem row_eq_rowAt {index : Nat} (inside : index < table.rowCount) :
    table.row index = .ok (table.rowAt index) :=
  row_of_getElem? (getElem?_rows inside)

theorem length_rowAt {index : Nat} (inside : index < table.rowCount) :
    (table.rowAt index).length = table.rowLength :=
  (table.fits_rows _ (List.mem_of_getElem? (getElem?_rows inside))).1

/-- Every index is one of a row. -/
def Contains (table : Table) (indices : List Nat) : Prop :=
  ∀ index ∈ indices, index < table.rowCount

theorem uniform_rowAt {indices : List Nat} (contains : table.Contains indices) :
    ∀ row ∈ indices.map table.rowAt, row.length = table.rowLength := by
  intro row member
  obtain ⟨index, isIndex, rfl⟩ := List.mem_map.mp member
  exact length_rowAt (contains index isIndex)

theorem length_sumAt {indices : List Nat} (contains : table.Contains indices) :
    (table.sumAt indices).length = table.rowLength :=
  Row.length_sum (uniform_rowAt contains)

/-- A server adds up the rows at indices of the table. The sum stays as long as the rows, so no two
lengths meet. -/
theorem xorRows_eq_sumAt {indices : List Nat} (contains : table.Contains indices) :
    table.xorRows indices = .ok (table.sumAt indices) := by
  have loop : ∀ start : Row, start.length = table.rowLength → (indices.foldlM
      (fun sum index => do sum.xor? (← table.row index)) start : Outcome Row) =
      .ok ((indices.map table.rowAt).foldl Row.xor start) := by
    induction indices with
    | nil => exact fun start fits => rfl
    | cons index rest ih =>
        intro start fits
        have inside := contains index List.mem_cons_self
        have rowFits := length_rowAt inside
        have added : start.xor? (table.rowAt index) = .ok (start.xor (table.rowAt index)) :=
          if_pos (fits.trans rowFits.symm)
        rw [List.foldlM_cons, row_eq_rowAt inside]
        refine (congrArg (· >>= _) added).trans ?_
        exact ih (fun other member => contains other (List.mem_cons_of_mem index member)) _
          (Row.length_xor_of fits rowFits)
  exact loop _ (Row.length_zero table.rowLength)

theorem map_rowAt_range (table : Table) :
    (List.range table.rowCount).map table.rowAt = table.rows.toList := by
  refine List.ext_getElem? fun index => ?_
  rw [List.getElem?_map]
  by_cases inside : index < table.rowCount
  · rw [List.getElem?_range inside, getElem?_rows inside, Option.map_some]
  · rw [List.getElem?_eq_none (by rwa [List.length_range, ← Nat.not_lt]),
      List.getElem?_eq_none (by rwa [← rowCount_eq, ← Nat.not_lt]), Option.map_none]

/-- The sum at some indices is that at all but one of them, plus the row there. -/
theorem sumAt_eraseIdx {indices : List Nat} (contains : table.Contains indices) {place index : Nat}
    (held : indices[place]? = some index) :
    table.sumAt indices = (table.sumAt (indices.eraseIdx place)).xor (table.rowAt index) := by
  have mapped : (indices.map table.rowAt)[place]? = some (table.rowAt index) := by
    rw [List.getElem?_map, held, Option.map_some]
  rw [sumAt, Row.sum_eraseIdx (uniform_rowAt contains) mapped, sumAt, List.eraseIdx_map]

end Table

end PrivateRetrieval
