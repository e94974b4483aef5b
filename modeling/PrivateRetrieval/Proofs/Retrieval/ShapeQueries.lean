/-
# Rows from shares and from lines

Two schemes have the servers add up selections that differ in one place. With shares of a point
function the servers select rows, so their answers add up to the row. With the matrix scheme
they select lines of rows, so their answers add up to a line, and the row is cut out of it. The
last line may be short of rows; it is filled up with zeros behind its last row, where no row is
looked for.

The servers check every index and length on their way. A share marks the rows in a bitmap that has
a bit for each of them, and the rows of a line are added one by one to their places in the answer.
None of these checks fails once the request has as many corrections, or as many lines, as the table
asks for.

All that is used of the arrangement in lines is that lines are at least one row wide and that
there are as many as the rows need. How wide they are exactly, which square roots decide, does
not matter.
-/

import PrivateRetrieval.Proofs.Points.Marking
import PrivateRetrieval.Proofs.Sets.Puncturing
import PrivateRetrieval.Retrieval.Server
import PrivateRetrieval.Retrieval.ShapeQuery

namespace PrivateRetrieval

namespace Shape

theorem width_pos (shape : Shape) : 0 < shape.grid.width := by
  rw [grid]
  split
  · exact Nat.one_pos
  · exact Nat.lt_of_lt_of_le Nat.one_pos (Nat.le_max_right _ 1)

/-- There is a line for every row. -/
theorem line_lt_height {shape : Shape} {row : Nat} (inside : row < shape.rowCount) :
    row / shape.grid.width < shape.grid.height := by
  rw [grid]
  split
  · rw [Nat.div_one]
    exact inside
  · exact Nat.lt_succ_of_le (Nat.div_le_div_right (Nat.le_sub_one_of_lt inside))

/-- A row is cut out of the sum of two answers of the length of a line. -/
theorem rowOfLines_eq {shape : Shape} {column : Nat} {left right : Row}
    (leftFits : left.length = shape.grid.width * shape.rowLength)
    (rightFits : right.length = shape.grid.width * shape.rowLength)
    (inLine : column < shape.grid.width) :
    shape.rowOfLines column ⟨left, right⟩ =
      .ok (((left.xor right).drop (column * shape.rowLength)).take shape.rowLength) := by
  have fits : ¬ shape.grid.width * shape.rowLength < (column + 1) * shape.rowLength :=
    Nat.not_lt.mpr (Nat.mul_le_mul_right _ inLine)
  simp only [rowOfLines, leftFits, rightFits, fits, ne_eq, not_true_eq_false, or_self, if_false]
  rfl

end Shape

/-- A row is found in rows that are written one behind the other. -/
theorem take_drop_flatten {rows : List Row} {length : Nat}
    (uniform : ∀ row ∈ rows, row.length = length) (filling : Row) {place : Nat} {row : Row}
    (held : rows[place]? = some row) :
    ((rows.flatten ++ filling).drop (place * length)).take length = row := by
  induction rows generalizing place with
  | nil => cases held
  | cons first rest ih =>
      have firstFits := uniform first List.mem_cons_self
      rw [List.flatten_cons, List.append_assoc]
      cases place with
      | zero =>
          obtain rfl : first = row := Option.some.inj held
          rw [Nat.zero_mul, List.drop_zero, ← firstFits, List.take_left']
          rfl
      | succ place =>
          have beyond : (place + 1) * length = first.length + place * length := by
            rw [firstFits, Nat.succ_mul, Nat.add_comm]
          rw [beyond, ← List.drop_drop, List.drop_left]
          exact ih (fun other member => uniform other (List.mem_cons_of_mem first member))
            (List.getElem?_cons_succ ▸ held)

namespace Table

variable {table : Table}

/-- The rows of a line. -/
def lineRows (table : Table) (width index : Nat) : List Row :=
  (table.rows.extract (index * width) (index * width + width)).toList

theorem getElem?_lineRows {width index column : Nat} (inLine : column < width)
    (inside : index * width + column < table.rowCount) :
    (table.lineRows width index)[column]? = some (table.rowAt (index * width + column)) := by
  rw [lineRows, Array.toList_extract, List.extract_eq_take_drop,
    List.getElem?_take_of_lt (by omega),
    List.getElem?_drop]
  exact getElem?_rows inside

theorem uniform_lineRows (width index : Nat) :
    ∀ row ∈ table.lineRows width index, row.length = table.rowLength := by
  intro row member
  refine (table.fits_rows row ?_).1
  rw [lineRows, Array.toList_extract, List.extract_eq_take_drop] at member
  exact List.mem_of_mem_drop (List.mem_of_mem_take member)

theorem length_lineRows (width index : Nat) :
    (table.lineRows width index).length =
      min (index * width + width) table.rowCount - index * width := by
  rw [lineRows, Array.length_toList, Array.size_extract]
  rfl

/-- A line of the table, filled up with zeros. -/
def line (table : Table) (width index : Nat) : Row :=
  let bytes := (table.lineRows width index).flatten
  bytes ++ Row.zero (width * table.rowLength - bytes.length)

theorem length_line (width index : Nat) :
    (table.line width index).length = width * table.rowLength := by
  have few : (table.lineRows width index).length ≤ width := by
    rw [length_lineRows]
    omega
  have bytes : (table.lineRows width index).flatten.length ≤ width * table.rowLength := by
    rw [List.length_flatten, List.map_congr_left (uniform_lineRows width index), List.map_const',
      List.sum_replicate, smul_eq_mul]
    exact Nat.mul_le_mul_right table.rowLength few
  rw [line, List.length_append, Row.length_zero]
  exact Nat.add_sub_cancel' bytes

/-- A row in its line. -/
theorem take_drop_line {row width : Nat} (positive : 0 < width) (inside : row < table.rowCount) :
    ((table.line width (row / width)).drop (row % width * table.rowLength)).take table.rowLength =
      table.rowAt row := by
  have isRow : row / width * width + row % width = row := Nat.div_add_mod' row width
  have held : (table.lineRows width (row / width))[row % width]? =
      some (table.rowAt (row / width * width + row % width)) :=
    getElem?_lineRows (Nat.mod_lt row positive) (isRow.symm ▸ inside)
  rw [isRow] at held
  exact take_drop_flatten (uniform_lineRows width (row / width)) _ held

/-- Rows are added one by one to their places in an answer. The bytes before the first of them stay
as they are, and so do those behind the last one. -/
theorem foldlM_addAt {rows : List Row} (uniform : ∀ row ∈ rows, row.length = table.rowLength)
    {first column : Nat}
    (held : ∀ place row, rows[place]? = some row →
      table.row (first + (column + place)) = .ok row)
    {before behind : Row} (isColumn : before.length = column * table.rowLength)
    (room : rows.flatten.length ≤ behind.length) :
    ((List.range' column rows.length).foldlM (fun answer column => do
      Row.addAt answer (column * table.rowLength) ((column + 1) * table.rowLength)
        (← table.row (first + column))) (before ++ behind) : Outcome Row) =
      .ok (before ++ behind.xor (rows.flatten ++
        Row.zero (behind.length - rows.flatten.length))) := by
  induction rows generalizing column before behind with
  | nil =>
      rw [List.flatten_nil, List.nil_append]
      exact congrArg (fun rest => Except.ok (before ++ rest)) (Row.xor_zero rfl).symm
  | cons row rest ih =>
      have rowFits := uniform row List.mem_cons_self
      rw [List.flatten_cons, List.length_append] at room
      -- The bytes behind begin with the place of the row.
      obtain ⟨part, after, isBehind, fits⟩ : ∃ part after, behind = part ++ after ∧
          part.length = row.length :=
        ⟨_, _, (List.take_append_drop row.length behind).symm,
          List.length_take_of_le (by omega)⟩
      subst isBehind
      rw [List.length_append] at room
      have isPlace : (column + 1) * table.rowLength = before.length + row.length := by
        rw [isColumn, rowFits, Nat.succ_mul]
      have added : (before ++ (part ++ after)).addAt (column * table.rowLength)
          ((column + 1) * table.rowLength) row = .ok (before ++ part.xor row ++ after) := by
        rw [isPlace, ← isColumn]
        exact Row.addAt_append fits
      have nextColumn : (before ++ part.xor row).length = (column + 1) * table.rowLength := by
        rw [List.length_append, Row.length_xor fits, isPlace]
      have heldRest : ∀ place other, rest[place]? = some other →
          table.row (first + (column + 1 + place)) = .ok other := by
        intro place other isOther
        rw [Nat.add_assoc column, Nat.add_comm 1]
        exact held (place + 1) other (List.getElem?_cons_succ.trans isOther)
      have read : table.row (first + column) = .ok row := held 0 row rfl
      rw [List.length_cons, List.range'_succ, List.foldlM_cons, read]
      refine (congrArg (· >>= _) added).trans ?_
      refine (ih (fun other member => uniform other (List.mem_cons_of_mem row member)) heldRest
        nextColumn (by omega)).trans ?_
      rw [List.flatten_cons, List.length_append, List.length_append, fits,
        Nat.add_sub_add_left, List.append_assoc row, Row.xor_append fits, List.append_assoc]

/-- A line is added to an answer of the length of a line. -/
theorem addLine_eq {width index : Nat} {answer : Row}
    (fits : answer.length = width * table.rowLength) :
    table.addLine width index answer = .ok (answer.xor (table.line width index)) := by
  have held : ∀ place row, (table.lineRows width index)[place]? = some row →
      table.row (index * width + (0 + place)) = .ok row := by
    intro place row isRow
    have inside : place < (table.lineRows width index).length :=
      (List.getElem?_eq_some_iff.mp isRow).choose
    rw [length_lineRows] at inside
    rw [getElem?_lineRows (by omega) (by omega)] at isRow
    rw [Nat.zero_add, row_eq_rowAt (by omega), Option.some.inj isRow]
  have room : (table.lineRows width index).flatten.length ≤ answer.length := by
    have whole : (table.line width index).length = width * table.rowLength :=
      length_line width index
    rw [line, List.length_append] at whole
    omega
  rw [addLine, List.range_eq_range', ← length_lineRows, line, ← fits]
  have nothing : ([] : Row).length = 0 * table.rowLength := (Nat.zero_mul table.rowLength).symm
  exact foldlM_addAt (uniform_lineRows width index) held nothing room

/-- The selected ones of some lines are added to an answer of the length of a line. -/
theorem foldlM_addLine {width : Nat} (lines : List Bool) (first : Nat) {answer : Row}
    (fits : answer.length = width * table.rowLength) :
    ((lines.zipIdx first).foldlM (fun answer (chosen, line) =>
      if chosen then table.addLine width line answer else .ok answer) answer : Outcome Row) =
      .ok ((Row.select lines ((List.range' first lines.length).map (table.line width))).foldl
        Row.xor answer) := by
  induction lines generalizing first answer with
  | nil => rfl
  | cons chosen rest ih =>
      rw [List.zipIdx_cons, List.foldlM_cons, List.length_cons, List.range'_succ, List.map_cons]
      cases chosen with
      | false => exact ih (first + 1) fits
      | true =>
          refine (congrArg (· >>= _) (addLine_eq fits)).trans ?_
          exact ih (first + 1) (Row.length_xor_of fits (length_line width first))

/-- The sum of selected lines. -/
theorem answerLines_eq {lines : List Bool} (fits : lines.length = table.shape.grid.height) :
    table.answerLines lines = .ok (Row.sum (table.shape.grid.width * table.rowLength)
      (Row.select lines ((List.range lines.length).map (table.line table.shape.grid.width)))) := by
  rw [answerLines, if_pos fits, List.range_eq_range']
  exact foldlM_addLine lines 0 (Row.length_zero _)

end Table

theorem filterM_eq_ok {α : Type} {list : List α} {check : α → Outcome Bool}
    {holds : α → Bool} (agree : ∀ value ∈ list, check value = .ok (holds value)) :
    list.filterM check = .ok (list.filter holds) := by
  have loop : ∀ kept : List α, list.filterAuxM check kept =
      .ok ((list.filter holds).reverse ++ kept) := by
    induction list with
    | nil => exact fun kept => rfl
    | cons value rest ih =>
        intro kept
        have kind := ih fun other member => agree other (List.mem_cons_of_mem value member)
        rw [List.filterAuxM, agree value List.mem_cons_self, List.filter_cons]
        refine (kind _).trans ?_
        cases holds value with
        | false => rfl
        | true => rw [if_pos rfl, List.reverse_cons, List.append_assoc]; rfl
  refine (congrArg (· >>= fun kept => pure kept.reverse) (loop [])).trans ?_
  rw [List.append_nil]
  exact congrArg Except.ok (List.reverse_reverse _)

namespace Table

variable {table : Table}

/-- The sum of the rows at which the bit of a share is set. -/
theorem answerShare_eq {share : PointShare}
    (depth : share.corrections.length = treeHeight table.rowCount) :
    table.answerShare share = .ok (Row.sum table.rowLength
      (Row.select (share.bits ShareNode.expand table.rowCount) table.rows.toList)) := by
  obtain ⟨bitmap, marked, size, set⟩ :=
    PointShare.mark_spec ShareNode.expand table.rowCount share
  have deep : table.rowCount ≤ 2 ^ share.corrections.length := by
    rw [depth]
    exact le_two_pow_treeHeight table.rowCount
  have areBits : share.bits ShareNode.expand table.rowCount =
      (List.range table.rowCount).map (Bits.isSet bitmap) := by
    refine List.ext_getElem? fun number => ?_
    have length := PointShare.length_bitsFrom ShareNode.expand share.corrections share.root
      table.rowCount
    rw [Nat.min_eq_left deep] at length
    rw [List.getElem?_map]
    by_cases inside : number < table.rowCount
    · have isSet : Bits.isSet bitmap number = share.eval ShareNode.expand number := by
        rw [Bool.eq_iff_iff, set, and_iff_right inside,
          and_iff_right (Nat.lt_of_lt_of_le inside deep)]
      rw [List.getElem?_range inside, Option.map_some, isSet]
      exact PointShare.getElem?_bitsFrom ShareNode.expand share.corrections share.root inside
        (Nat.lt_of_lt_of_le inside deep)
    · have beyond : table.rowCount ≤ number := Nat.not_lt.mp inside
      have absent : (List.range table.rowCount)[number]? = none :=
        List.getElem?_eq_none (List.length_range.trans_le beyond)
      rw [absent, Option.map_none]
      exact List.getElem?_eq_none (length.trans_le beyond)
  have read : (List.range table.rowCount).filterM (Bits.bitAt bitmap) =
      .ok ((List.range table.rowCount).filter (Bits.isSet bitmap)) := by
    refine filterM_eq_ok fun number member => Bits.bitAt_eq_isSet ?_
    rw [size]
    exact Nat.lt_of_lt_of_le (List.mem_range.mp member) (Bits.byteCount_spec table.rowCount)
  have contains : table.Contains ((List.range table.rowCount).filter (Bits.isSet bitmap)) :=
    fun number member => List.mem_range.mp (List.mem_of_mem_filter member)
  rw [answerShare, if_neg (not_not_intro depth), marked]
  show ((List.range table.rowCount).filterM (Bits.bitAt bitmap) >>= table.xorRows) = _
  rw [read, areBits, ← map_rowAt_range, Row.select_map]
  exact xorRows_eq_sumAt contains

end Table

/-- Two selections around a line differ in that line only. -/
theorem Shape.selectionsAround_spec (line : Nat) (lines : List Bool) :
    (selectionsAround line lines).right.length = lines.length ∧
      ∀ other < lines.length,
        (List.zipWith Bool.xor (selectionsAround line lines).left
          (selectionsAround line lines).right)[other]? = some (decide (other = line)) := by
  refine ⟨List.length_modify .., ?_⟩
  intro other inside
  rw [List.getElem?_zipWith]
  simp only [selectionsAround, List.getElem?_eq_getElem inside, List.getElem?_modify]
  by_cases same : line = other
  · simp [same]
  · simp [same, Ne.symm same]

theorem Tape.coins_spec (count : Nat) (tape : Tape) :
    (tape.coins count).1.length = count ∧ (tape.coins count).2.word = tape.word := by
  induction count generalizing tape with
  | zero => exact ⟨rfl, rfl⟩
  | succ count ih =>
      obtain ⟨length, word⟩ := ih tape.coin.2
      exact ⟨congrArg Nat.succ length, word⟩

namespace Table

/-- The servers accept selections of lines, and the row is found in their answers. -/
theorem rowOfLines_spec {table : Table} {row : Nat} (inside : row < table.rowCount)
    {lines : List Bool} (fits : lines.length = table.shape.grid.height) :
    ∃ left right,
      table.answerLines (Shape.selectionsAround (row / table.shape.grid.width) lines).left =
        .ok left ∧
      table.answerLines (Shape.selectionsAround (row / table.shape.grid.width) lines).right =
        .ok right ∧
      table.shape.rowOfLines (row % table.shape.grid.width) ⟨left, right⟩ =
        .ok (table.rowAt row) := by
  set width := table.shape.grid.width with isWidth
  set selections := Shape.selectionsAround (row / width) lines with areSelections
  obtain ⟨lengthRight, differ⟩ := Shape.selectionsAround_spec (row / width) lines
  rw [← areSelections] at lengthRight differ
  have positive : 0 < width := table.shape.width_pos
  have inGrid : row / width < lines.length := fits ▸ Shape.line_lt_height inside
  set allLines := (List.range lines.length).map (table.line width) with areLines
  have uniform : ∀ line ∈ allLines, line.length = width * table.rowLength := by
    intro line member
    obtain ⟨index, -, rfl⟩ := List.mem_map.mp member
    exact length_line width index
  have held : allLines[row / width]? = some (table.line width (row / width)) := by
    rw [areLines, List.getElem?_map, List.getElem?_range inGrid, Option.map_some]
  have answersLeft : table.answerLines selections.left =
      .ok (Row.sum (width * table.rowLength) (Row.select selections.left allLines)) :=
    answerLines_eq fits
  have answersRight : table.answerLines selections.right =
      .ok (Row.sum (width * table.rowLength) (Row.select selections.right allLines)) := by
    rw [answerLines_eq (lengthRight.trans fits), lengthRight]
  refine ⟨_, _, answersLeft, answersRight, ?_⟩
  have lengthSelected : ∀ bits : List Bool,
      (Row.sum (width * table.rowLength) (Row.select bits allLines)).length =
        width * table.rowLength := fun bits => Row.length_sum_select uniform
  have isLine : (Row.sum (width * table.rowLength) (Row.select selections.left allLines)).xor
      (Row.sum (width * table.rowLength) (Row.select selections.right allLines)) =
      table.line width (row / width) := by
    have equal : selections.left.length = selections.right.length := lengthRight.symm
    rw [Row.sum_select_xor equal uniform]
    refine Row.sum_select_single uniform held fun other otherInside => differ other ?_
    rwa [areLines, List.length_map, List.length_range] at otherInside
  have found := take_drop_line positive inside
  rw [← isLine] at found
  exact (Shape.rowOfLines_eq (lengthSelected selections.left) (lengthSelected selections.right)
    (Nat.mod_lt row positive)).trans (congrArg Except.ok found)

/-- Selections around the line of a row are drawn, and the row is found in the answers to them. -/
theorem selectionsOf_spec {table : Table} {row : Nat} (inside : row < table.rowCount)
    (tape : Tape) :
    (table.shape.selectionsOf row tape).2.word = tape.word ∧
      ∃ left right, table.answerLines (table.shape.selectionsOf row tape).1.left = .ok left ∧
        table.answerLines (table.shape.selectionsOf row tape).1.right = .ok right ∧
        table.shape.rowOfLines (row % table.shape.grid.width) ⟨left, right⟩ =
          .ok (table.rowAt row) := by
  obtain ⟨length, word⟩ := Tape.coins_spec table.shape.grid.height tape
  exact ⟨word, rowOfLines_spec inside length⟩

/-- Shares for a row are drawn, and the row is found in the answers to them. -/
theorem sharesOf_spec {table : Table} {row : Nat} (inside : row < table.rowCount) (tape : Tape) :
    (table.shape.sharesOf row tape).2.word = tape.word ∧
      ∃ left right, table.answerShare (table.shape.sharesOf row tape).1.left = .ok left ∧
        table.answerShare (table.shape.sharesOf row tape).1.right = .ok right ∧
        table.shape.rowOfSums ⟨left, right⟩ = .ok (table.rowAt row) := by
  set shares := PointShare.ofSeeds ShareNode.expand row (treeHeight table.rowCount)
    tape.label.1 tape.label.2.label.1 with areShares
  obtain ⟨lengthLeft, lengthRight, differ⟩ := PointShare.bits_ofSeeds ShareNode.expand inside
    (le_two_pow_treeHeight table.rowCount) tape.label.1 tape.label.2.label.1
  rw [← areShares] at lengthLeft lengthRight differ
  have depth : shares.1.corrections.length = treeHeight table.rowCount :=
    Correction.length_alongPath ShareNode.expand row _ _ _
  have uniform : ∀ row ∈ table.rows.toList, row.length = table.rowLength :=
    fun row member => (table.fits_rows row member).1
  refine ⟨rfl, _, _, answerShare_eq depth, answerShare_eq depth, ?_⟩
  have sums : (Row.sum table.rowLength
      (Row.select (shares.1.bits ShareNode.expand table.rowCount) table.rows.toList)).xor
      (Row.sum table.rowLength
        (Row.select (shares.2.bits ShareNode.expand table.rowCount) table.rows.toList)) =
      table.rowAt row := by
    refine (Row.sum_select_xor (lengthLeft.trans lengthRight.symm) uniform).trans ?_
    refine Row.sum_select_single uniform (getElem?_rows inside) fun other otherInside => ?_
    exact differ other (rowCount_eq table ▸ otherInside)
  have lengths : ∀ bits, (Row.sum table.rowLength (Row.select bits table.rows.toList)).length =
      table.rowLength := fun bits => Row.length_sum_select uniform
  rw [Shape.rowOfSums, if_pos ⟨lengths _, lengths _⟩]
  exact congrArg Except.ok sums

end Table

end PrivateRetrieval
