/-
# Calls that fail

A call that a server refuses is meant to leave the server as it was. Nothing is noted before the
keys and the rows of a call are checked. But the compaction that may follow can fail as well, when
the log was shortened already and the rows are laid out anew, and then the server has changed.

Rows of length zero make the difference. They are not counted by the table, so a server that has
no other rows takes rows of any other length afterwards, and its log then puts rows of two lengths.
As long as a server is never given both empty rows and others, its compactions cannot fail: rows
that carry something were in the table before, and empty rows fit a table of empty rows.
-/

import PrivateRetrieval.Proofs.Server.Upkeep

namespace PrivateRetrieval

namespace Table

theorem rowLength_of_push {table after : Table} {row : Row} (pushed : table.push row = .ok after) :
    row.length = table.rowLength ∧ after.rowLength = table.rowLength := by
  rw [push] at pushed
  split at pushed
  · rename_i length
    split at pushed
    · cases pushed
      exact ⟨length, rfl⟩
    · cases pushed
      exact ⟨length, rfl⟩
  · cases pushed

theorem rowLength_of_pushAll {table after : Table} {rows : List Row}
    (added : table.pushAll rows = .ok after) : after.rowLength = table.rowLength := by
  induction rows generalizing table with
  | nil =>
      cases added
      rfl
  | cons row rest ih =>
      have added : (table.push row >>= fun table => table.pushAll rest) = .ok after := added
      cases pushed : table.push row with
      | error failure =>
          rw [pushed] at added
          cases added
      | ok next =>
          rw [pushed] at added
          rw [ih added, (rowLength_of_push pushed).2]

/-- Rows are added up to the first one that has not the length of the table. -/
theorem pushUntilRefused_cases {table after : Table} {rows : List Row} {result : Outcome Unit}
    (pushed : table.pushUntilRefused rows = (result, after)) :
    after.rowLength = table.rowLength ∧
      (result = .ok () ∨ ∃ row ∈ rows, row.length ≠ table.rowLength ∧
        result = .error (.rowLengthMismatch table.rowLength row.length)) := by
  induction rows generalizing table with
  | nil =>
      cases pushed
      exact ⟨rfl, Or.inl rfl⟩
  | cons row rest ih =>
      rw [pushUntilRefused] at pushed
      split at pushed
      · rename_i next isNext
        obtain ⟨-, rowLength⟩ := rowLength_of_push isNext
        obtain ⟨rowLengthAfter, outcome⟩ := ih pushed
        rw [rowLength] at rowLengthAfter outcome
        refine ⟨rowLengthAfter, outcome.imp_right ?_⟩
        rintro ⟨other, member, differs, isMismatch⟩
        exact ⟨other, List.mem_cons_of_mem _ member, differs, isMismatch⟩
      · rename_i failure refused
        cases pushed
        refine ⟨rfl, Or.inr ⟨row, List.mem_cons_self, ?_⟩⟩
        rw [push] at refused
        split at refused
        · split at refused <;> cases refused
        · rename_i differs
          cases refused
          exact ⟨differs, rfl⟩

end Table

namespace KeyServer

/-- The rows that a call puts. -/
def Call.rows : Call → List Row
  | .add _ rows => rows
  | .delete _ => []

/-- If a compaction fails, it came to a row that has not the length of the table. -/
theorem of_compactIfOverBound_eq_error {server after : KeyServer} {failure : Failure}
    (failed : server.compactIfOverBound = (.error failure, after)) :
    server.isOverBound = true ∧
      ∃ row ∈ server.compactedLog.entries.filterMap Entry.row?,
        row.length ≠ server.table.rowLength ∧
        failure = .rowLengthMismatch server.table.rowLength row.length := by
  rcases compactIfOverBound_cases failed with ⟨-, succeeded, -⟩ | ⟨exceeded, laidOut, -⟩
  · cases succeeded
  · rcases (Table.pushUntilRefused_cases laidOut).2 with succeeded | ⟨row, member, differs, same⟩
    · cases succeeded
    · exact ⟨exceeded, row, member, differs, Except.error.inj same⟩

/-! ## Servers of empty rows -/

/-- A server that was given none but empty rows. -/
structure Hollow (server : KeyServer) : Prop where
  rowLength : server.table.rowLength = 0
  empty : ∀ row ∈ server.log.entries.filterMap Entry.row?, row = []

theorem hollow_empty (configuration : ServerConfiguration) : (empty configuration).Hollow where
  rowLength := rfl
  empty row member := by cases member

namespace Hollow

variable {server : KeyServer}

/-- Empty rows are received by a table of empty rows. -/
theorem rowLength_receivingTable (hollow : server.Hollow) :
    (server.receivingTable []).rowLength = 0 := by
  rw [receivingTable]
  split
  · rfl
  · exact hollow.rowLength

theorem note (hollow : server.Hollow) {call : Call} (given : ∀ row ∈ call.rows, row = [])
    {noted : KeyServer} (isNoted : call.note server = .ok noted) : noted.Hollow := by
  have log := (Call.of_note isNoted).2.1
  cases call with
  | add keys rows =>
      have given : ∀ row ∈ rows, row = [] := given
      obtain ⟨-, -, -, -, table⟩ := of_insert isNoted
      refine ⟨?_, ?_⟩
      · rcases table with ⟨-, same⟩ | ⟨first, member, -, pushed⟩
        · rw [same, hollow.rowLength]
        · rw [Table.rowLength_of_pushAll pushed, given first member,
            hollow.rowLength_receivingTable]
      · rw [log, Log.append, List.filterMap_append]
        intro row member
        rcases List.mem_append.mp member with old | new
        · exact hollow.empty row old
        · exact given row (mem_of_mem_batch new)
  | delete keys =>
      refine ⟨?_, ?_⟩
      · cases isNoted
        exact hollow.rowLength
      · rw [log, Log.append, List.filterMap_append]
        intro row member
        rcases List.mem_append.mp member with old | new
        · exact hollow.empty row old
        · obtain ⟨entry, isEntry, isRow⟩ := List.mem_filterMap.mp new
          obtain ⟨key, -, rfl⟩ := List.mem_map.mp isEntry
          cases isRow

theorem compactIfOverBound (hollow : server.Hollow) :
    ∃ after, server.compactIfOverBound = (.ok (), after) ∧ after.Hollow := by
  rcases compacted : server.compactIfOverBound with ⟨failure | _, after⟩
  · obtain ⟨-, row, member, differs, -⟩ := of_compactIfOverBound_eq_error compacted
    have old := (server.sublist_compactedLog.filterMap Entry.row?).subset member
    rw [hollow.empty row old, hollow.rowLength] at differs
    exact absurd rfl differs
  · refine ⟨after, rfl, ?_⟩
    rcases compactIfOverBound_cases compacted with ⟨-, -, rfl⟩ | ⟨-, laidOut, -, log, -⟩
    · exact hollow
    · refine ⟨?_, ?_⟩
      · rw [(Table.pushUntilRefused_cases laidOut).1, Table.empty, hollow.rowLength]
      · intro row member
        rw [log] at member
        exact hollow.empty row ((server.sublist_compactedLog.filterMap Entry.row?).subset member)

theorem perform_of_error (hollow : server.Hollow) {call : Call}
    (given : ∀ row ∈ call.rows, row = []) {failure : Failure} {after : KeyServer}
    (refused : call.perform server = (.error failure, after)) : after = server := by
  refine Call.eq_of_refused (fun noted isNoted => ?_) refused
  obtain ⟨compacted, succeeded, -⟩ := (hollow.note given isNoted).compactIfOverBound
  exact ⟨compacted, succeeded⟩

theorem performed (hollow : server.Hollow) {call : Call} (given : ∀ row ∈ call.rows, row = []) :
    (call.perform server).2.Hollow := by
  rcases performed : call.perform server with ⟨result, after⟩
  rcases Call.perform_cases performed with ⟨-, -, rfl⟩ | ⟨noted, isNoted, compacted⟩
  · exact hollow
  · obtain ⟨other, isCompacted, hollowAfter⟩ := (hollow.note given isNoted).compactIfOverBound
    rw [compacted, Prod.mk.injEq] at isCompacted
    rw [isCompacted.2]
    exact hollowAfter

theorem afterAll (hollow : server.Hollow) {calls : List Call}
    (given : ∀ call ∈ calls, ∀ row ∈ call.rows, row = []) : (server.afterAll calls).Hollow := by
  induction calls generalizing server with
  | nil => exact hollow
  | cons call calls ih =>
      exact ih (hollow.performed (given call List.mem_cons_self))
        fun call member => given call (List.mem_cons_of_mem _ member)

end Hollow

theorem hollow_make {configuration : ServerConfiguration} {keys : List Key} {rows : List Row}
    (given : ∀ row ∈ rows, row = []) {server : KeyServer}
    (made : make configuration keys rows = .ok server) : server.Hollow := by
  have givenFirst : ∀ row ∈ (Call.add keys rows).rows, row = [] := given
  obtain ⟨-, noted, isNoted, compacted⟩ := of_make made
  have hollowNoted := (hollow_empty configuration).note givenFirst isNoted
  obtain ⟨after, isCompacted, hollowAfter⟩ := hollowNoted.compactIfOverBound
  rw [compacted, Prod.mk.injEq] at isCompacted
  rw [isCompacted.2]
  exact hollowAfter

/-! ## Refusals -/

/-- Calls that put no empty row have content. -/
theorem Call.hasContent_of_rows {call : Call} (given : ∀ row ∈ call.rows, row ≠ []) :
    call.HasContent := by
  cases call with
  | add keys rows => exact fun row member => List.length_pos_iff.mpr (given row member)
  | delete keys => trivial

/-- A call that fails leaves the server as it was, whatever happened before. The only exception is
a call whose entries were noted and whose compaction then came to a row that has not the length of
the table. Only a server that was given empty rows and others gets there. -/
theorem unchanged_unless_rows_mixed {configuration : ServerConfiguration} {keys : List Key}
    {rows : List Row} {calls : List Call} {start : KeyServer}
    (made : make configuration keys rows = .ok start) {call : Call} {failure : Failure}
    {after : KeyServer} (refused : call.perform (start.afterAll calls) = (.error failure, after)) :
    let given := (Call.add keys rows :: (calls ++ [call])).flatMap Call.rows
    after = start.afterAll calls ∨
      (∃ noted, call.note (start.afterAll calls) = .ok noted ∧ noted.isOverBound = true ∧
        ∃ row ∈ noted.compactedLog.entries.filterMap Entry.row?,
          row.length ≠ noted.table.rowLength ∧
          failure = .rowLengthMismatch noted.table.rowLength row.length) ∧
        (∃ row ∈ given, row = []) ∧ ∃ row ∈ given, row ≠ [] := by
  intro given
  have rowsGiven : ∀ other ∈ Call.add keys rows :: (calls ++ [call]), ∀ row ∈ other.rows,
      row ∈ given := fun other member row isRow => List.mem_flatMap.mpr ⟨other, member, isRow⟩
  have earlier : ∀ other ∈ calls, other ∈ Call.add keys rows :: (calls ++ [call]) :=
    fun other member => List.mem_cons_of_mem _ (List.mem_append_left _ member)
  have last : call ∈ Call.add keys rows :: (calls ++ [call]) :=
    List.mem_cons_of_mem _ (List.mem_append_right _ List.mem_cons_self)
  by_cases someEmpty : ∃ row ∈ given, row = []
  · by_cases someFilled : ∃ row ∈ given, row ≠ []
    · -- Rows of both kinds: the call was refused at once, or its compaction failed.
      rcases Call.perform_cases refused with ⟨-, -, unchanged⟩ | ⟨noted, isNoted, failed⟩
      · exact Or.inl unchanged
      · exact Or.inr
          ⟨⟨noted, isNoted, of_compactIfOverBound_eq_error failed⟩, someEmpty, someFilled⟩
    · have empty : ∀ other ∈ Call.add keys rows :: (calls ++ [call]), ∀ row ∈ other.rows,
          row = [] := by
        intro other member row isRow
        by_contra filled
        exact someFilled ⟨row, rowsGiven other member row isRow, filled⟩
      have hollow := (hollow_make (empty _ List.mem_cons_self) made).afterAll
        fun other member => empty other (earlier other member)
      exact Or.inl (hollow.perform_of_error (empty call last) refused)
  · have content : ∀ other ∈ Call.add keys rows :: (calls ++ [call]), other.HasContent := by
      intro other member
      apply Call.hasContent_of_rows
      intro row isRow isEmpty
      exact someEmpty ⟨row, rowsGiven other member row isRow, isEmpty⟩
    obtain ⟨_, keeps, -⟩ := (keeps_make (content _ List.mem_cons_self) made).afterAll
      fun other member => content other (earlier other member)
    exact Or.inl (keeps.perform_of_error (content call last) refused)

/-- A row of another length than those that are there is refused, and nothing happens. -/
theorem unchanged_after_longer_row :
    ∃ start after, make {} [1] [[7]] = .ok start ∧
      (Call.add [2] [[8, 9]]).perform start = (.error (.rowLengthMismatch 1 2), after) ∧
      after = start := by
  have works : (make {} [1] [[7]]).toOption.map (fun start =>
      ((Call.add [2] [[8, 9]]).perform start).1) =
      some (.error (.rowLengthMismatch 1 2)) := by cbv
  cases made : make {} [1] [[7]] with
  | error failure =>
      rw [made] at works
      cases works
  | ok start =>
      rw [made] at works
      rcases refused : (Call.add [2] [[8, 9]]).perform start with ⟨result, after⟩
      simp only [Except.toOption, Option.map_some, Option.some.injEq, refused] at works
      subst works
      refine ⟨start, after, rfl, refused, ?_⟩
      have refused : (Call.add [2] [[8, 9]]).perform (start.afterAll []) =
        (.error (.rowLengthMismatch 1 2), after) := refused
      rcases unchanged_unless_rows_mixed made refused with
        unchanged | ⟨-, ⟨row, member, rfl⟩, -⟩
      · exact unchanged
      · simp [Call.rows] at member

/-- An empty row under one key lets a longer one in under another key. When the second key is put
again, the log is compacted, the empty row does not fit the new table, and the call fails. The row
that the table had is gone, although nothing should have happened. -/
theorem row_lost_by_refused_call :
    ∃ start after, make { ratio := .finite 1 } [] [] = .ok start ∧
      (Call.add [2] [[6]]).perform (start.afterAll [.add [1] [[]], .add [2] [[5]]]) =
        (.error (.rowLengthMismatch 1 0), after) ∧
      (start.afterAll [.add [1] [[]], .add [2] [[5]]]).rowCount = 1 ∧ after.rowCount = 0 := by
  have works : (make { ratio := .finite 1 } [] []).toOption.map (fun start =>
      let server := start.afterAll [.add [1] [[]], .add [2] [[5]]]
      let failed := (Call.add [2] [[6]]).perform server
      (failed.1, server.rowCount, failed.2.rowCount)) =
      some (.error (.rowLengthMismatch 1 0), 1, 0) := by cbv
  cases made : make { ratio := .finite 1 } [] [] with
  | error failure =>
      rw [made] at works
      cases works
  | ok start =>
      rw [made] at works
      simp only [Except.toOption, Option.map_some, Option.some.injEq, Prod.mk.injEq] at works
      obtain ⟨failed, before, rest⟩ := works
      exact ⟨start, _, rfl, Prod.ext failed rfl, before, rest⟩

end KeyServer

end PrivateRetrieval
