/-
# Epochs of a server

A server lays its rows out anew whenever it compacts its log, and a row may get another position
by that. Whoever remembers positions would have to watch every compaction, were it not for the
timestamp at which the compacted prefix ends. It never moves backwards. As long as it stays where
it is, entries are only added at the end of the log and rows at the end of the table, even if the
server has compacted in between: a compaction that ends where the last one ended finds nothing to
drop.
-/

import PrivateRetrieval.Proofs.Server.Upkeep
import PrivateRetrieval.Proofs.Table.Ranges

namespace PrivateRetrieval

namespace KeyServer

namespace Keeps

variable {known server : KeyServer} {history more : List (Entry Row)}

/-- A server that has compacted no further has a log that continues the one that it had. -/
theorem log_eq_append (before : known.Keeps history) (after : server.Keeps (history ++ more))
    (same : server.log.defragmented = known.log.defragmented) :
    server.log = known.log.append more := by
  rw [after.log, same, ← Log.append_ofHistory before.inside, ← before.log]

/-- A server that has compacted no further has rows that continue those that it had. -/
theorem precedes (before : known.Keeps history) (after : server.Keeps (history ++ more))
    (same : server.log.defragmented = known.log.defragmented) :
    known.table.Precedes server.table := by
  rw [Table.Precedes, before.rows, after.rows, before.log_eq_append after same, Log.append,
    List.filterMap_append]
  exact List.prefix_append _ _

end Keeps

/-- Whatever calls a server carries out or refuses, the compacted prefix does not end earlier than
before. If it ends where it ended, the log begins at the same timestamp and continues the earlier
one, and so does the table. So if a row is not at its position any more, the prefix ends later. -/
theorem epoch_keeps_positions {configuration : ServerConfiguration} {keys : List Key}
    {rows : List Row} {calls more : List Call} {start : KeyServer}
    (content : ∀ call ∈ Call.add keys rows :: (calls ++ more), call.HasContent)
    (made : make configuration keys rows = .ok start) :
    let server := start.afterAll calls
    let later := server.afterAll more
    server.log.defragmented ≤ later.log.defragmented ∧
      (later.log.defragmented = server.log.defragmented →
        later.log.initial = server.log.initial ∧
          server.log.entries <+: later.log.entries ∧ server.table.Precedes later.table) ∧
      ∀ position < server.rowCount, later.table.row position ≠ server.table.row position →
        server.log.defragmented < later.log.defragmented := by
  intro server later
  have contentCalls : ∀ call ∈ calls, call.HasContent := fun call member =>
    content call (List.mem_cons_of_mem _ (List.mem_append_left _ member))
  have contentMore : ∀ call ∈ more, call.HasContent := fun call member =>
    content call (List.mem_cons_of_mem _ (List.mem_append_right _ member))
  obtain ⟨before, keeps, -⟩ :=
    (keeps_make (content _ List.mem_cons_self) made).afterAll contentCalls
  obtain ⟨added, keepsLater, further⟩ := keeps.afterAll contentMore
  refine ⟨further, ?_, ?_⟩
  · intro same
    have log : later.log = server.log.append added := keeps.log_eq_append keepsLater same
    rw [log]
    exact ⟨rfl, List.prefix_append _ _, keeps.precedes keepsLater same⟩
  · intro position inside moved
    refine further.lt_of_ne fun same => moved ?_
    have precedes : server.table.Precedes later.table := keeps.precedes keepsLater same.symm
    obtain ⟨row, isRow, given⟩ := Table.row_of_lt inside
    obtain ⟨rest, isRest⟩ := precedes
    rw [given]
    apply Table.row_of_getElem?
    obtain ⟨within, -⟩ := List.getElem?_eq_some_iff.mp isRow
    rw [← isRest, List.getElem?_append_left within, isRow]

/-- A key that is put again and again, until the rows before its last one are dropped and the row
of the other key moves. -/
theorem epoch_ends_when_row_moves :
    ∃ start, make { ratio := .finite 2 } [1, 2] [[1], [2]] = .ok start ∧
      (start.afterAll [.add [1] [[3]], .add [1] [[4]]]).table.row 0 = .ok [1] ∧
      ((start.afterAll [.add [1] [[3]], .add [1] [[4]]]).afterAll
        [.add [1] [[5]]]).table.row 0 = .ok [2] ∧
      (start.afterAll [.add [1] [[3]], .add [1] [[4]]]).log.defragmented <
        ((start.afterAll [.add [1] [[3]], .add [1] [[4]]]).afterAll
          [.add [1] [[5]]]).log.defragmented := by
  have works : (make { ratio := .finite 2 } [1, 2] [[1], [2]]).toOption.map (fun start =>
      let server := start.afterAll [.add [1] [[3]], .add [1] [[4]]]
      (server.rowCount, server.table.row 0, (server.afterAll [.add [1] [[5]]]).table.row 0)) =
      some (4, .ok [1], .ok [2]) := by cbv
  cases made : make { ratio := .finite 2 } [1, 2] [[1], [2]] with
  | error failure =>
      rw [made] at works
      cases works
  | ok start =>
      rw [made] at works
      simp only [Except.toOption, Option.map_some, Option.some.injEq, Prod.mk.injEq] at works
      obtain ⟨rowCount, before, after⟩ := works
      have content : ∀ call ∈ Call.add [1, 2] [[1], [2]] ::
          ([.add [1] [[3]], .add [1] [[4]]] ++ [.add [1] [[5]]]), call.HasContent := by
        simp [Call.HasContent]
      refine ⟨start, rfl, before, after, (epoch_keeps_positions content made).2.2 0 ?_ ?_⟩
      · rw [rowCount]
        exact Nat.zero_lt_succ _
      · rw [before, after]
        decide

end KeyServer

end PrivateRetrieval
