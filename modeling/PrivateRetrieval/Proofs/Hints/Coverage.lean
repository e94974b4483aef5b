/-
# Which rows a client covers

A client covers a row if one of its stored sets contains it. Then and only then it takes queries for
the row, and the rows that it counts as covered are those for which it does, whatever notes it made,
moved or lost on the way. A row that was read is covered afterwards: a refresh puts a set that
contains it into the slot, and the other cases leave the stored sets as they are. So a row that was
read once can be read again and again.

That queries are answered was shown for clients whose hints are true. Hints play no part in a query,
so here they are replaced by the sums of the rows of the sets: what a client asks for is answered
even if earlier answers were wrong.
-/

import PrivateRetrieval.Proofs.Hints.Charting

namespace PrivateRetrieval

/-! ## Counting covered rows -/

/-- The marked places of a list are as many as its marks. -/
theorem count_true_eq_card (marks : List Bool) :
    marks.count true =
      ((Finset.range marks.length).filter fun place => marks[place]? = some true).card := by
  have spelled : marks =
      (List.range marks.length).map fun place => decide (marks[place]? = some true) := by
    refine List.ext_getElem (by simp) fun place inside _ => ?_
    rw [List.getElem_map, List.getElem_range, List.getElem?_eq_getElem inside]
    cases marks[place] <;> rfl
  calc marks.count true
      = ((List.range marks.length).map fun place => decide (marks[place]? = some true)).count
          true := congrArg _ spelled
    _ = ((List.range marks.length).filter fun place => marks[place]? = some true).length := by
        rw [List.count, List.countP_map, List.countP_eq_length_filter]
        simp [Function.comp_def]
    _ = ((Finset.range marks.length).filter fun place => marks[place]? = some true).card := rfl

namespace PuncturedClient

/-- Mark some rows. -/
def mark (marks : Array Bool) (rows : List Nat) : Array Bool :=
  rows.foldl (fun marks row => marks.setIfInBounds row true) marks

theorem size_mark (marks : Array Bool) (rows : List Nat) : (mark marks rows).size = marks.size := by
  induction rows generalizing marks with
  | nil => rfl
  | cons row rest ih => exact (ih _).trans Array.size_setIfInBounds

/-- A row is marked now if it is one of those, or was marked before. -/
theorem getElem?_mark (marks : Array Bool) (rows : List Nat) (row : Nat) :
    (mark marks rows)[row]? = some true ↔
      row < marks.size ∧ row ∈ rows ∨ marks[row]? = some true := by
  induction rows generalizing marks with
  | nil => simp [mark]
  | cons first rest ih =>
      show (mark (marks.setIfInBounds first true) rest)[row]? = some true ↔ _
      rw [ih, Array.size_setIfInBounds, Array.getElem?_setIfInBounds, List.mem_cons]
      by_cases same : first = row
      · subst same
        by_cases inside : first < marks.size
        · simp [inside]
        · simp [inside]
      · simp [same, Ne.symm same]

theorem size_foldl_mark (client : PuncturedClient) (sets : List StoredSet) (marks : Array Bool) :
    (sets.foldl (fun marks set => mark marks (client.rebuild set.handle).elements) marks).size =
      marks.size := by
  induction sets generalizing marks with
  | nil => rfl
  | cons set rest ih => exact (ih _).trans (size_mark marks _)

theorem getElem?_foldl_mark (client : PuncturedClient) (sets : List StoredSet)
    (marks : Array Bool) (row : Nat) :
    (sets.foldl (fun marks set => mark marks (client.rebuild set.handle).elements)
        marks)[row]? = some true ↔
      row < marks.size ∧ (∃ set ∈ sets, row ∈ (client.rebuild set.handle).elements) ∨
        marks[row]? = some true := by
  induction sets generalizing marks with
  | nil => simp
  | cons set rest ih =>
      rw [List.foldl_cons, ih, size_mark, getElem?_mark, List.exists_mem_cons_iff, ← or_assoc,
        ← and_or_left, or_comm (a := ∃ set ∈ rest, _)]

/-- A slot has a row if a stored set has it. -/
theorem exists_holds_iff (client : PuncturedClient) (row : Nat) :
    (∃ slot, client.Holds slot row) ↔
      ∃ set ∈ client.stored.toList, row ∈ (client.rebuild set.handle).elements := by
  constructor
  · rintro ⟨slot, set, held, member⟩
    rw [← Array.getElem?_toList] at held
    exact ⟨set, List.mem_of_getElem? held, member⟩
  · rintro ⟨set, stored, member⟩
    obtain ⟨slot, held⟩ := List.getElem?_of_mem stored
    rw [Array.getElem?_toList] at held
    exact ⟨slot, set, held, member⟩

open scoped Classical in
/-- The rows that are counted as covered are those of the stored sets. -/
theorem coveredCount_eq_card (client : PuncturedClient) :
    client.coveredCount =
      ((Finset.range client.rowCount).filter fun row => ∃ slot, client.Holds slot row).card := by
  have folded : client.coveredCount = (client.stored.toList.foldl
      (fun marks set => mark marks (client.rebuild set.handle).elements)
      (Array.replicate client.rowCount false)).toList.count true := by
    rw [coveredCount, ← Array.foldl_toList]
    rfl
  rw [folded, count_true_eq_card, Array.length_toList, size_foldl_mark, Array.size_replicate]
  congr 1
  refine Finset.filter_congr fun row inside => ?_
  rw [Array.getElem?_toList, getElem?_foldl_mark, Array.size_replicate, exists_holds_iff,
    Array.getElem?_replicate, if_pos (Finset.mem_range.mp inside)]
  simp [Finset.mem_range.mp inside]

variable {client asked after : PuncturedClient} {table : Table} {record : List Exchange}
  {drawn row slot : Nat} {tape later : Tape} {queries : Sides SetQuery} {pending : PendingSet}

/-! ## Clients with true hints -/

/-- A stored set with the sum of its rows as the hint. -/
def restate (client : PuncturedClient) (table : Table) (set : StoredSet) : StoredSet :=
  ⟨set.handle, table.sumAt (client.rebuild set.handle).elements⟩

/-- The client with true hints. -/
def withSums (client : PuncturedClient) (table : Table) : PuncturedClient :=
  { client with stored := client.stored.map (client.restate table) }

theorem setAt_withSums (client : PuncturedClient) (table : Table) (owner : Array (Option Nat))
    (slot : Nat) :
    setAt { client.withSums table with owner } slot = setAt { client with owner } slot := by
  simp only [setAt, withSums, Array.getElem?_map]
  cases client.stored[slot]? with
  | none => rfl
  | some set => rfl

theorem drawQuery_withSums (client : PuncturedClient) (table : Table) (owner : Array (Option Nat))
    (row slot : Nat) :
    drawQuery { client.withSums table with owner } row slot =
      drawQuery { client with owner } row slot := by
  simp only [drawQuery, setAt_withSums]
  rfl

theorem scan_withSums (client : PuncturedClient) (table : Table) (row : Nat)
    (sets : List StoredSet) (first : Nat) (owner : Array (Option Nat)) :
    (client.withSums table).scan row ((sets.map (client.restate table)).zipIdx first) owner =
      client.scan row (sets.zipIdx first) owner := by
  induction sets generalizing first owner with
  | nil => rfl
  | cons set rest ih =>
      rw [List.map_cons, List.zipIdx_cons, List.zipIdx_cons, scan, scan]
      have same : (client.withSums table).rebuild (client.restate table set).handle =
          client.rebuild set.handle := rfl
      rw [same]
      split
      · rfl
      · rw [ih]

theorem locate_withSums (client : PuncturedClient) (table : Table) (row : Nat) :
    (client.withSums table).locate row =
      ((client.locate row).1,
        { client.withSums table with owner := (client.locate row).2.owner }) := by
  have sameOwner : (client.withSums table).owner = client.owner := rfl
  rw [locate, locate, sameOwner]
  cases client.owner[row]? with
  | none => rfl
  | some noted =>
      cases noted with
      | some slot => rfl
      | none =>
          have scanned := scan_withSums client table row client.stored.toList 0 client.owner
          rw [← Array.toList_map] at scanned
          dsimp only
          rw [← scanned]
          rfl

/-- Hints play no part in a query. -/
theorem query_withSums (client : PuncturedClient) (table : Table) (row : Nat) (tape : Tape) :
    ((client.withSums table).query row tape).1 = (client.query row tape).1 ∧
      ((client.withSums table).query row tape).2.2 = (client.query row tape).2.2 := by
  obtain ⟨slot, owner, located⟩ := exists_locate_eq client row
  have empty : (client.withSums table).stored.isEmpty = client.stored.isEmpty := by
    simp only [withSums, Array.isEmpty, Array.size_map]
  rw [query, query, empty, locate_withSums, located]
  split
  · exact ⟨rfl, rfl⟩
  cases slot with
  | none => exact ⟨rfl, rfl⟩
  | some slot =>
      dsimp only
      rw [drawQuery_withSums]
      cases drawQuery { client with owner } row slot tape with
      | error failure => exact ⟨rfl, rfl⟩
      | ok result => exact ⟨rfl, rfl⟩

/-- The slots hold the same rows. -/
theorem holds_withSums (client : PuncturedClient) (table : Table) {slot row : Nat} :
    (client.withSums table).Holds slot row ↔ client.Holds slot row := by
  simp only [Holds, withSums, Array.getElem?_map, Option.map_eq_some_iff]
  constructor
  · rintro ⟨_, ⟨set, held, rfl⟩, member⟩
    exact ⟨set, held, member⟩
  · rintro ⟨set, held, member⟩
    exact ⟨_, ⟨set, held, rfl⟩, member⟩

/-- With true hints, the client of a course is sound. -/
theorem Course.sound_withSums (course : Course client record drawn) (left : drawn < 2 ^ 32)
    (few : client.rowCount ≤ 2 ^ 32) (rowCount : table.rowCount = client.rowCount)
    (rowLength : table.rowLength = client.rowLength) : (client.withSums table).Sound table := by
  obtain ⟨charted, -⟩ := course.charted left
  obtain ⟨held, start, stocked, accounts⟩ := course.accounts left
  have comes : ∀ {slot : Nat} {set : StoredSet}, (client.withSums table).stored[slot]? = some set →
      ComesTo held record slot set.handle := by
    intro slot set isHeld
    apply accounts.tracked.comesTo_of_contents
    rw [← accounts.handleAt, handleAt]
    rw [withSums, Array.getElem?_map, Option.map_eq_some_iff] at isHeld
    obtain ⟨before, wasHeld, rfl⟩ := isHeld
    rw [wasHeld]
    rfl
  refine
    { rowLength := rowLength.symm
      domain := rowCount.symm
      sameTree := charted.sameTree
      standard := charted.standard
      twoElements := charted.twoElements
      few := rowCount.symm ▸ few
      inOrder := ?_
      number_lt := ?_
      apart := ?_
      distinct := ?_
      hint := ?_
      ownerSize := charted.ownerSize.trans rowCount.symm
      notes := ?_ }
  · show client.hinted.nextNumber.toNat ≤ client.current.nextNumber.toNat
    rw [accounts.start_eq, accounts.drawn_eq]
    exact accounts.tracked.start_le
  · intro set member
    obtain ⟨slot, isHeld⟩ := List.getElem?_of_mem member
    rw [Array.getElem?_toList] at isHeld
    show set.handle.number.toNat < client.current.nextNumber.toNat
    rw [accounts.drawn_eq]
    exact Tracked.number_lt_of_comesTo stocked accounts.tracked (comes isHeld)
  · intro first second set other isFirst isSecond same
    exact Tracked.slot_eq_of_comesTo stocked accounts.tracked (comes isFirst) (comes isSecond) same
  · intro set member
    rw [withSums, Array.toList_map] at member
    obtain ⟨before, stored, rfl⟩ := List.mem_map.mp member
    exact charted.distinct before stored
  · intro set member
    rw [withSums, Array.toList_map] at member
    obtain ⟨before, stored, rfl⟩ := List.mem_map.mp member
    rfl
  · intro row slot noted
    exact (holds_withSums client table).mpr (charted.notes row slot noted)

/-! ## Reading a row again -/

/-- Answers of the right length are put to use. -/
theorem exists_reconstruct (charted : client.Charted) {answers : Sides SetAnswer}
    (leftFits : client.accepts answers.left = true)
    (rightFits : client.accepts answers.right = true)
    (hasPlace : ∀ slot set, pending = .refresh slot set → slot < client.stored.size ∧
      ∀ element ∈ set.elements, element < client.rowCount) :
    ∃ found after, client.reconstruct pending answers = .ok (found, after) := by
  have accepted : (!(client.accepts answers.left && client.accepts answers.right)) = false := by
    rw [leftFits, rightFits]
    rfl
  cases pending with
  | refresh slot set =>
      obtain ⟨inside, elements⟩ := hasPlace slot set rfl
      have held := Array.getElem?_eq_getElem inside
      have hintFits : client.stored[slot].hint.length = answers.right.sum.length := by
        rw [charted.hintLength _ (Array.mem_toList_iff.mpr (Array.getElem_mem inside))]
        exact (eq_of_beq (Bool.and_eq_true_iff.mp rightFits).1).symm
      have allInside : set.elements.all (· < client.owner.size) = true := by
        rw [List.all_eq_true, charted.ownerSize]
        exact fun element member => decide_eq_true (elements element member)
      simp only [reconstruct, accepted, held, Row.xor?, if_pos hintFits, replace, setAt, allInside,
        bind, Except.bind]
      exact ⟨_, _, rfl⟩
  | extraRight =>
      simp only [reconstruct, accepted, bind, Except.bind]
      exact ⟨_, _, rfl⟩
  | extraLeft =>
      simp only [reconstruct, accepted, bind, Except.bind]
      exact ⟨_, _, rfl⟩

/-- Read a row of a table, with answers of honest servers. -/
def readFrom (client : PuncturedClient) (table : Table) (row : Nat) (tape : Tape) :
    Outcome (Row × PuncturedClient × Tape) :=
  match client.query row tape with
  | (.ok (queries, pending), asked, tape) => do
      let left ← table.answerSet queries.left
      let right ← table.answerSet queries.right
      let (found, after) ← asked.reconstruct pending ⟨left, right⟩
      return (found, after, tape)
  | (.error failure, _, _) => .error failure

/-- Read one row so many times. -/
def readTimes (table : Table) (row : Nat) :
    Nat → PuncturedClient → Tape → Outcome (List Row × PuncturedClient × Tape)
  | 0, client, tape => .ok ([], client, tape)
  | count + 1, client, tape => do
      let (found, client, tape) ← client.readFrom table row tape
      let (rest, client, tape) ← readTimes table row count client tape
      return (found :: rest, client, tape)

/-- Queries are made for rows of stored sets only. -/
theorem Charted.exists_holds (charted : client.Charted)
    (made : client.query row tape = (.ok (queries, pending), asked, later)) :
    ∃ slot, client.Holds slot row := by
  have filled : client.stored.isEmpty = false := by
    by_contra empty
    rw [Bool.not_eq_false] at empty
    rw [query, empty, if_pos rfl] at made
    cases made
  by_contra absent
  have refused := (charted.refused_iff filled row tape).mpr (not_exists.mp absent)
  rw [made] at refused
  cases refused

/-- The set that a refresh waits to store contains the row that is asked for. -/
theorem mem_of_refresh {set : KeyedSet}
    (made : client.query row tape = (.ok (queries, .refresh slot set), asked, later)) :
    row ∈ set.elements := by
  obtain ⟨owner, place, current, -, isDrawn⟩ := of_query made
  obtain ⟨-, -, case, fresh, stored, first, second, -, -, -, -, isPending, isLeft, -⟩ :=
    of_drawQuery isDrawn
  cases case with
  | refresh =>
      cases isPending
      exact mem_of_ask isLeft
  | extraRight => cases isPending
  | extraLeft => cases isPending

/-- After a row was read, a stored set contains it: the one that was put into a slot, or one that
contained it before. -/
theorem Course.holds_of_read (course : Course client record drawn)
    (left : drawn + client.current.draws < 2 ^ 32)
    (made : client.query row tape = (.ok (queries, pending), asked, later))
    {answers : Sides SetAnswer} {found : Row}
    (answered : asked.reconstruct pending answers = .ok (found, after)) :
    ∃ slot, after.Holds slot row := by
  have asks := asks_of_query made
  cases isSlot : pending.slot? with
  | none =>
      obtain rfl := of_reconstruct_extra isSlot answered
      obtain ⟨-, stored, hinted, tree, cipher⟩ := asks.unchanged
      obtain ⟨slot, holds⟩ := (course.charted (by omega)).1.exists_holds made
      exact ⟨slot, (holds_congr stored hinted tree cipher).mpr holds⟩
  | some slot =>
      obtain ⟨set, rfl⟩ : ∃ set, pending = .refresh slot set := by
        cases pending with
        | refresh place set =>
            cases isSlot
            exact ⟨set, rfl⟩
        | extraRight => cases isSlot
        | extraLeft => cases isSlot
      obtain ⟨inOrder, numbers⟩ := course.hasNumbersLeft left
      obtain ⟨rebuilt, -⟩ := asks.awaits inOrder numbers slot set rfl
      obtain ⟨used, hint, held, -, rfl⟩ := of_reconstruct_refresh answered
      obtain ⟨inside, -⟩ := Array.getElem?_eq_some_iff.mp held
      refine ⟨slot, ⟨set.handle, hint⟩,
        (getElem?_setIfInBounds_iff inside _ slot _).mpr (Or.inl ⟨rfl, rfl⟩), ?_⟩
      show row ∈ (asked.rebuild set.handle).elements
      rw [rebuilt]
      exact mem_of_refresh made

/-- Queries draw one set, and leave the numbers after it. -/
theorem Asks.drawsMany_succ {pending : Option PendingSet}
    (asks : client.Asks row queries pending after) (count : Nat) :
    client.current.drawsMany (count + 1) =
      client.current.draws + after.current.drawsMany count := by
  cases asks with
  | fresh isFresh => exact SetGenerator.drawsMany_succ_of_freshWith isFresh count
  | refresh isFresh => exact SetGenerator.drawsMany_succ_of_freshWith isFresh count

/-- There is a place for the set that a query waits to store. -/
theorem Charted.hasPlace (charted : client.Charted)
    (asks : client.Asks row queries (some pending) asked) :
    ∀ slot set, pending = .refresh slot set → slot < asked.stored.size ∧
      ∀ element ∈ set.elements, element < asked.rowCount := by
  rintro slot set rfl
  cases asks with
  | fresh _ noSlot => cases noSlot
  | refresh isFresh held =>
      obtain ⟨tree, cipher, owns⟩ := SetGenerator.of_freshWith isFresh
      refine ⟨(Array.getElem?_eq_some_iff.mp held).1, fun element member => ?_⟩
      have inside := owns.lt_domain member
      rwa [charted.sameTree] at inside

theorem rowLength_of_reconstruct {answers : Sides SetAnswer} {found : Row}
    (made : client.reconstruct pending answers = .ok (found, after)) :
    after.rowLength = client.rowLength := by
  cases pending with
  | refresh slot set =>
      obtain ⟨used, hint, -, -, rfl⟩ := of_reconstruct_refresh made
      rfl
  | extraRight => rw [of_reconstruct_extra rfl made]
  | extraLeft => rw [of_reconstruct_extra rfl made]

/-- Honest servers answer the queries for a covered row, or the tape is not fair. -/
theorem Course.answered_cases (course : Course client record drawn)
    (left : drawn + client.current.draws < 2 ^ 32) (few : client.rowCount ≤ 2 ^ 32)
    (rowCount : table.rowCount = client.rowCount) (rowLength : table.rowLength = client.rowLength)
    (holds : client.Holds slot row) (tape : Tape) :
    ((client.query row tape).1 = .error .exhausted ∧ ¬ tape.Fair) ∨
      ∃ queries pending asked later, ∃ answers : Sides SetAnswer,
        client.query row tape = (.ok (queries, pending), asked, later) ∧
        later.word = tape.word ∧ table.answerSet queries.left = .ok answers.left ∧
        table.answerSet queries.right = .ok answers.right ∧
        client.accepts answers.left = true ∧ client.accepts answers.right = true := by
  have numbers := (course.hasNumbersLeft left).2
  have sound := course.sound_withSums (by omega) few rowCount rowLength
  obtain ⟨sameResult, sameTape⟩ := query_withSums client table row tape
  rcases query_cases sound numbers row tape with
    ⟨failure, owner, refused, -, why⟩ |
      ⟨queries, pending, owner, fresh, current, after, isAsked, sameWord, -, -, -, answerable⟩
  · rw [refused] at sameResult
    rcases why with ⟨-, empty⟩ | ⟨-, missed⟩ | ⟨rfl, unfair⟩
    · obtain ⟨set, held, -⟩ := (holds_withSums client table).mpr holds
      rw [Array.isEmpty_iff.mp empty] at held
      cases held
    · exact absurd ((holds_withSums client table).mpr holds) (missed slot)
    · exact Or.inl ⟨sameResult.symm, unfair⟩
  · obtain ⟨answers, isLeft, isRight, leftFits, rightFits, -⟩ := answerable.answers
    rw [isAsked] at sameResult sameTape
    rcases made : client.query row tape with ⟨result, asked, later⟩
    rw [made] at sameResult sameTape
    obtain rfl : Except.ok (queries, pending) = result := sameResult
    obtain rfl : after = later := sameTape
    exact Or.inr ⟨queries, pending, asked, after, answers, rfl, sameWord, isLeft, isRight,
      leftFits, rightFits⟩

/-- A covered row can be read from a table of the client's shape, and is covered afterwards, or the
tape is not fair. -/
theorem Course.readFrom_cases (course : Course client record drawn)
    (left : drawn + client.current.draws < 2 ^ 32) (few : client.rowCount ≤ 2 ^ 32)
    (rowCount : table.rowCount = client.rowCount) (rowLength : table.rowLength = client.rowLength)
    (holds : client.Holds slot row) (tape : Tape) :
    (client.readFrom table row tape = .error .exhausted ∧ ¬ tape.Fair) ∨
      ∃ found after later record, client.readFrom table row tape = .ok (found, after, later) ∧
        later.word = tape.word ∧ Course after record (drawn + client.current.draws) ∧
        (∀ count, client.current.drawsMany (count + 1) =
          client.current.draws + after.current.drawsMany count) ∧
        after.rowCount = client.rowCount ∧ after.rowLength = client.rowLength ∧
        ∃ slot, after.Holds slot row := by
  rw [readFrom]
  rcases course.answered_cases left few rowCount rowLength holds tape with
    ⟨failed, unfair⟩ |
      ⟨queries, pending, asked, later, answers, made, sameWord, isLeft, isRight, fits⟩
  · rcases made : client.query row tape with ⟨result, asked, later⟩
    rw [made] at failed
    obtain rfl : result = .error .exhausted := failed
    exact Or.inl ⟨rfl, unfair⟩
  · have asks := asks_of_query made
    obtain ⟨length, -, hinted, -, -⟩ := asks.unchanged
    have charted := (course.charted (by omega)).1
    obtain ⟨size, notes⟩ := charted.notes_query row tape
    rw [made] at size notes
    simp only [accepts, ← length] at fits
    obtain ⟨found, after, isFound⟩ := exists_reconstruct (charted.asks asks size notes) fits.1
      fits.2 (charted.hasPlace asks)
    obtain ⟨hintedAfter, currentAfter, -⟩ := of_reconstruct isFound
    have courseAfter := (course.query made).answer List.mem_cons_self rfl isFound
    refine Or.inr ⟨found, after, later, _, ?_, sameWord, courseAfter, ?_, ?_, ?_,
      course.holds_of_read left made isFound⟩
    · simp only [made, isLeft, isRight, isFound, bind, Except.bind]
      rfl
    · intro count
      rw [currentAfter]
      exact asks.drawsMany_succ count
    · rw [PuncturedClient.rowCount, hintedAfter, hinted]
      rfl
    · rw [rowLength_of_reconstruct isFound, length]

/-- A covered row can be read again and again, or the tape is not fair. -/
theorem Course.readTimes_cases (few : client.rowCount ≤ 2 ^ 32)
    (rowCount : table.rowCount = client.rowCount) (rowLength : table.rowLength = client.rowLength)
    (covered : ∃ slot, client.Holds slot row) (count : Nat) (tape : Tape)
    (course : Course client record drawn)
    (left : drawn + client.current.drawsMany count < 2 ^ 32) :
    (∃ rows after later, readTimes table row count client tape = .ok (rows, after, later) ∧
        rows.length = count ∧ ∃ slot, after.Holds slot row) ∨
      (readTimes table row count client tape = .error .exhausted ∧ ¬ tape.Fair) := by
  induction count generalizing client record drawn tape with
  | zero => exact Or.inl ⟨[], client, tape, rfl, rfl, covered⟩
  | succ count ih =>
      obtain ⟨slot, holds⟩ := covered
      have leftOne : drawn + client.current.draws < 2 ^ 32 := by
        rw [SetGenerator.drawsMany] at left
        omega
      rcases course.readFrom_cases leftOne few rowCount rowLength holds tape with
        ⟨failed, unfair⟩ | ⟨found, after, later, record', isFound, sameWord, courseAfter, numbers,
          sameCount, sameLength, coveredAfter⟩
      · refine Or.inr ⟨?_, unfair⟩
        simp only [readTimes, failed, bind, Except.bind]
      · rw [numbers, ← Nat.add_assoc] at left
        rcases ih (sameCount ▸ few) (rowCount.trans sameCount.symm)
          (rowLength.trans sameLength.symm) coveredAfter later courseAfter left with
          ⟨rows, last, end', areRows, length, coveredLast⟩ | ⟨failed, unfair⟩
        · refine Or.inl ⟨found :: rows, last, end', ?_, congrArg _ length, coveredLast⟩
          simp only [readTimes, isFound, areRows, bind, Except.bind]
          rfl
        · refine Or.inr ⟨?_, fun fair => unfair ((Tape.fair_congr sameWord).mpr fair)⟩
          simp only [readTimes, isFound, failed, bind, Except.bind]

open scoped Classical in
/-- In every course coverage is decided by the stored sets alone, as long as the numbers of sets do
not run out. A query is refused as not covered if and only if no stored set contains its row, and
the count of covered rows is that of the rows whose queries are not refused. A row that was just
read is covered. A covered row can be read any number of times in a row from every table of the
client's shape, on every tape that is fair. -/
theorem Course.decides_coverage (course : Course client record drawn) (left : drawn < 2 ^ 32)
    (filled : client.stored.isEmpty = false) :
    (∀ row tape, (client.query row tape).1 = .error (.notCovered row) ↔
        ∀ slot, ¬ client.Holds slot row) ∧
      (∀ tapes : Nat → Tape, client.coveredCount =
        ((Finset.range client.rowCount).filter fun row =>
          (client.query row (tapes row)).1 ≠ .error (.notCovered row)).card) ∧
      (drawn + client.current.draws < 2 ^ 32 →
        ∀ row tape queries pending asked later answers found after,
          client.query row tape = (.ok (queries, pending), asked, later) →
          asked.reconstruct pending answers = .ok (found, after) →
          ∃ slot, after.Holds slot row) ∧
      (client.rowCount ≤ 2 ^ 32 → ∀ (table : Table) row count tape,
        table.rowCount = client.rowCount → table.rowLength = client.rowLength →
        drawn + client.current.drawsMany count < 2 ^ 32 → (∃ slot, client.Holds slot row) →
        (∃ rows after later, readTimes table row count client tape = .ok (rows, after, later) ∧
            rows.length = count ∧ ∃ slot, after.Holds slot row) ∨
          (readTimes table row count client tape = .error .exhausted ∧ ¬ tape.Fair)) := by
  obtain ⟨charted, -⟩ := course.charted left
  refine ⟨charted.refused_iff filled, ?_, ?_, ?_⟩
  · intro tapes
    rw [coveredCount_eq_card]
    congr 1
    refine Finset.filter_congr fun row _ => ?_
    rw [Ne, charted.refused_iff filled, not_forall_not]
  · intro more row tape queries pending asked later answers found after made answered
    exact course.holds_of_read more made answered
  · intro few table row count tape rowCount rowLength more covered
    exact course.readTimes_cases few rowCount rowLength covered count tape more

/-- A client of three rows with one stored set refuses a row beyond them, and reads a row of its
set twice. -/
theorem reads_covered_row_twice :
    ∃ table client row, Course client [] 1 ∧ client.stored.isEmpty = false ∧
      (∀ tape, (client.query 3 tape).1 = .error (.notCovered 3)) ∧
      ∃ rows after later, readTimes table row 2 client Tape.circle = .ok (rows, after, later) ∧
        rows.length = 2 ∧ ∃ slot, after.Holds slot row := by
  obtain ⟨table, sums, client, run, course, rowCount, one, size, cipher⟩ :=
    exists_course_of_three_rows
  have few : table.rowCount ≤ 2 ^ 32 := by
    rw [rowCount]
    decide
  have keeps := run.keeps few (by decide)
  have sound := keeps.sound
  have filled : client.stored.isEmpty = false := by
    rw [Array.isEmpty, one]
    rfl
  have many : client.current.drawsMany 2 = 2 :=
    SetGenerator.drawsMany_of_zeroKey (sound.domain_current.trans rowCount)
      (sound.size_current.trans size) (sound.sameTree ▸ sound.standard) cipher keeps.drawn_eq.le
  obtain ⟨row, holds⟩ := sound.exists_holds (one ▸ Nat.one_pos : 0 < client.stored.size)
  obtain ⟨refused, -, -, reads⟩ := course.decides_coverage (by decide) filled
  refine ⟨table, client, row, course, filled, fun tape => (refused 3 tape).mpr ?_, ?_⟩
  · intro slot beyond
    have inside := sound.lt_of_holds beyond
    omega
  · have read := reads (sound.domain.trans_le few) table row 2 Tape.circle sound.domain.symm
      sound.rowLength.symm (by rw [many]; decide) ⟨0, holds⟩
    exact read.resolve_right fun failed => failed.2 Tape.fair_circle

end PuncturedClient

end PrivateRetrieval
