/-
# What a server keeps

A server holds one history of changes in three forms: the log, the positions of the live keys, and
the table of rows. `KeyServer.Keeps` says how they belong together, and every call that a server
carries out keeps it so. That includes the compaction at the end of a call, which lays out the rows
anew and cannot fail: the rows that it puts into the table were in the table before.

Calls lengthen the history and never move the end of the compacted prefix backwards. So between two
states of a server with the same end of the prefix, nothing was moved and nothing was dropped.
-/

import PrivateRetrieval.Proofs.Log.Contents
import PrivateRetrieval.Proofs.Table.Rows
import PrivateRetrieval.Store.KeyServer

namespace PrivateRetrieval

namespace KeyServer

/-- A call that changes a server. -/
inductive Call
  | add (keys : List Key) (rows : List Row)
  | delete (keys : List Key)
  deriving DecidableEq, Repr

namespace Call

/-- Carry out a call. -/
def perform (server : KeyServer) : Call → Outcome Unit × KeyServer
  | .add keys rows => server.add keys rows
  | .delete keys => server.delete keys

/-- Whether the rows that a call puts carry something. -/
def HasContent : Call → Prop
  | .add _ rows => ∀ row ∈ rows, 0 < row.length
  | .delete _ => True

/-- The entries that a call adds to the log. -/
def entries : Call → List (Entry Row)
  | .add keys rows => batch keys rows
  | .delete keys => keys.map Entry.delete

end Call

/-! ## What a compaction does -/

/-- A compaction only drops entries. -/
theorem sublist_compactedLog (server : KeyServer) :
    server.compactedLog.entries.Sublist server.log.entries := by
  rw [compactedLog]
  split
  · exact (Log.sublist_compact _ _).trans (Log.sublist_compact _ _)
  · exact Log.sublist_compact _ _

/-- A server within its bound is left alone. Otherwise its log is compacted and the rows that are
left are laid out in a new table, up to the first one of another length. The positions follow only
if there is none. -/
theorem compactIfOverBound_cases {server after : KeyServer} {result : Outcome Unit}
    (compacted : server.compactIfOverBound = (result, after)) :
    server.isOverBound = false ∧ result = .ok () ∧ after = server ∨
      server.isOverBound = true ∧
        (Table.empty server.table.rowLength).pushUntilRefused
          (server.compactedLog.entries.filterMap Entry.row?) = (result, after.table) ∧
        after.configuration = server.configuration ∧ after.log = server.compactedLog ∧
        (result = .ok () → after.positions = Positions.empty.replay after.log.entries) := by
  rw [compactIfOverBound] at compacted
  split at compacted
  · rename_i exceeded
    rcases laidOut : (Table.empty server.table.rowLength).pushUntilRefused
      (server.compactedLog.entries.filterMap Entry.row?) with ⟨failure | _, table⟩
    · simp only [laidOut] at compacted
      cases compacted
      exact Or.inr ⟨exceeded, rfl, rfl, rfl, fun succeeded => by cases succeeded⟩
    · simp only [laidOut] at compacted
      cases compacted
      exact Or.inr ⟨exceeded, rfl, rfl, rfl, fun _ => rfl⟩
  · rename_i kept
    cases compacted
    exact Or.inl ⟨Bool.eq_false_iff.mpr kept, rfl, rfl⟩

/-! ## One history in three forms -/

/-- The three forms in which a server holds a history belong together. -/
structure Keeps (server : KeyServer) (history : List (Entry Row)) : Prop where
  /-- The compacted prefix ends within the history. -/
  inside : server.log.defragmented ≤ history.length
  /-- The log is what is left of the history. -/
  log : server.log = Log.ofHistory history server.log.defragmented
  /-- The positions are those of the log. -/
  positions : server.positions = Positions.empty.replay server.log.entries
  /-- The table holds the rows that the log puts, in the order of the log. -/
  rows : server.table.rows.toList = server.log.entries.filterMap Entry.row?

theorem keeps_empty (configuration : ServerConfiguration) : (empty configuration).Keeps [] where
  inside := Nat.le_refl 0
  log := rfl
  positions := rfl
  rows := rfl

namespace Keeps

variable {server : KeyServer} {history : List (Entry Row)}

theorem next (keeps : server.Keeps history) : server.log.next = history.length := by
  rw [keeps.log, Log.next_ofHistory keeps.inside]

/-- The rows of the table are as many as the log puts. -/
theorem rowCount (keeps : server.Keeps history) :
    server.rowCount = (server.log.entries.filterMap Entry.row?).length := by
  rw [KeyServer.rowCount, Table.rowCount_eq, keeps.rows]

/-- The positions locate the contents of the history in the rows of the table. -/
theorem locates (keeps : server.Keeps history) :
    server.positions.Locates server.table.rows.toList (Contents.empty.replay history) := by
  have contents := Contents.replay_ofHistory keeps.inside
  rw [← keeps.log] at contents
  rw [keeps.positions, keeps.rows, ← contents]
  exact Positions.locates_replay server.log.entries

/-- Entries that are noted in all three forms continue the history. -/
theorem append (keeps : server.Keeps history) {after : KeyServer} {entries : List (Entry Row)}
    (log : after.log = server.log.append entries)
    (positions : after.positions = server.positions.replay entries)
    (rows : after.table.rows.toList =
      server.table.rows.toList ++ entries.filterMap Entry.row?) :
    after.Keeps (history ++ entries) where
  inside := by
    rw [log, Log.append, List.length_append]
    exact Nat.le_add_right_of_le keeps.inside
  log := by
    have defragmented : after.log.defragmented = server.log.defragmented := by
      rw [log, Log.append]
    rw [defragmented, ← Log.append_ofHistory keeps.inside, ← keeps.log, log]
  positions := by
    rw [positions, keeps.positions, log, Log.append, Positions.replay_append]
  rows := by
    rw [rows, keeps.rows, log, Log.append, List.filterMap_append]

/-- The log compacted over at least the prefix that was compacted before is that of the same
history, compacted as far as before or further. -/
theorem compact_log (keeps : server.Keeps history) {count : Nat}
    (further : server.log.compactedCount ≤ count) :
    ∃ cut, server.log.defragmented ≤ cut ∧ cut ≤ history.length ∧
      server.log.compact count = Log.ofHistory history cut := by
  rw [keeps.log] at further
  have compacted := Log.exists_compact_ofHistory keeps.inside further
  rwa [← keeps.log] at compacted

/-- So is the log that a compaction leaves. -/
theorem compactedLog (keeps : server.Keeps history) :
    ∃ cut, server.log.defragmented ≤ cut ∧ cut ≤ history.length ∧
      server.compactedLog = Log.ofHistory history cut := by
  obtain ⟨cut, beyond, inside, isLog⟩ :=
    keeps.compact_log (Nat.le_max_right (server.entryCount / 2) server.log.compactedCount)
  rw [KeyServer.compactedLog, isLog]
  split
  · have further : (Log.ofHistory history cut).compactedCount ≤
        (Log.ofHistory history cut).entries.length := by
      rw [Log.compactedCount_ofHistory inside, Log.length_entries_ofHistory inside]
      exact Nat.le_add_right _ _
    obtain ⟨later, beyondToo, insideToo, isLater⟩ := Log.exists_compact_ofHistory inside further
    exact ⟨later, beyond.trans beyondToo, insideToo, isLater⟩
  · exact ⟨cut, beyond, inside, rfl⟩

/-- Compaction succeeds and keeps the history. -/
theorem compactIfOverBound (keeps : server.Keeps history) :
    ∃ after, server.compactIfOverBound = (.ok (), after) ∧ after.Keeps history ∧
      server.log.defragmented ≤ after.log.defragmented := by
  rcases compacted : server.compactIfOverBound with ⟨result, after⟩
  rcases compactIfOverBound_cases compacted with
    ⟨-, rfl, rfl⟩ | ⟨-, laidOut, -, log, positions⟩
  · exact ⟨after, rfl, keeps, Nat.le_refl _⟩
  · obtain ⟨cut, beyond, inside, isLog⟩ := keeps.compactedLog
    have fits : (Table.empty server.table.rowLength).Fits
        (server.compactedLog.entries.filterMap Entry.row?) := by
      intro row member
      have old : row ∈ server.table.rows.toList := by
        rw [keeps.rows]
        exact (server.sublist_compactedLog.filterMap Entry.row?).subset member
      exact server.table.fits_rows row old
    obtain ⟨table, added, -, rows⟩ := Table.pushAll_of_fits fits
    have isTable := Table.pushUntilRefused_of_pushAll added
    rw [laidOut, Prod.mk.injEq] at isTable
    obtain ⟨rfl, rfl⟩ := isTable
    have defragmented : after.log.defragmented = cut := by
      rw [log, isLog, Log.defragmented_ofHistory inside]
    refine ⟨after, rfl, ⟨?_, ?_, positions rfl, ?_⟩, ?_⟩
    · exact defragmented ▸ inside
    · rw [defragmented, log, isLog]
    · rw [rows, log]
      rfl
    · exact defragmented ▸ beyond

end Keeps

/-! ## Batches -/

/-- Sorting a batch by its keys keeps the order of the entries of every key. -/
theorem filter_batch (keys : List Key) (rows : List Row) (key : Key) :
    (batch keys rows).filter (·.key == key) =
      (List.zipWith Entry.put keys rows).filter (·.key == key) := by
  have sorted : ((List.zipWith Entry.put keys rows).filter (·.key == key)).Pairwise
      fun first second => decide (first.key ≤ second.key) = true := by
    apply List.pairwise_of_forall_mem_list
    intro first memberFirst second memberSecond
    have firstKey := beq_iff_eq.mp (List.mem_filter.mp memberFirst).2
    have secondKey := beq_iff_eq.mp (List.mem_filter.mp memberSecond).2
    rw [firstKey, secondKey]
    exact decide_eq_true (UInt32.le_refl key)
  have stable : ((List.zipWith Entry.put keys rows).filter (·.key == key)).Sublist
      (batch keys rows) := by
    refine List.sublist_mergeSort ?_ ?_ sorted List.filter_sublist
    · intro first second third
      simpa only [decide_eq_true_eq] using UInt32.le_trans
    · intro first second
      simpa only [Bool.or_eq_true, decide_eq_true_eq] using UInt32.le_total first.key second.key
  have within := stable.filter (·.key == key)
  rw [List.filter_filter] at within
  simp only [Bool.and_self] at within
  have length : ((batch keys rows).filter (·.key == key)).length =
      ((List.zipWith Entry.put keys rows).filter (·.key == key)).length :=
    ((List.mergeSort_perm _ _).filter _).length_eq
  exact (within.eq_of_length length.symm).symm

/-- A batch leaves what its entries leave in the order in which the caller gave them. -/
theorem replay_batch (contents : Contents Row) (keys : List Key) (rows : List Row) :
    contents.replay (batch keys rows) = contents.replay (List.zipWith Entry.put keys rows) := by
  funext key
  rw [← Contents.replay_filter, filter_batch, Contents.replay_filter]

/-- A batch puts the rows that it was given. -/
theorem mem_of_mem_batch {keys : List Key} {rows : List Row} {row : Row}
    (member : row ∈ (batch keys rows).filterMap Entry.row?) : row ∈ rows := by
  obtain ⟨entry, inBatch, isRow⟩ := List.mem_filterMap.mp member
  rw [batch, List.mem_mergeSort] at inBatch
  induction keys generalizing rows with
  | nil => cases inBatch
  | cons key keys ih =>
      cases rows with
      | nil => cases inBatch
      | cons first rest =>
          rw [List.zipWith_cons_cons, List.mem_cons] at inBatch
          rcases inBatch with rfl | later
          · cases isRow
            exact List.mem_cons_self
          · refine List.mem_cons_of_mem _ (ih ?_ later)
            exact List.mem_filterMap.mpr ⟨entry, List.mem_mergeSort.mpr later, isRow⟩

/-! ## Calls -/

/-- The table that new rows go to. A table without rows may change its row length. -/
def receivingTable (server : KeyServer) (first : Row) : Table :=
  if server.table.rowCount = 0 then Table.empty first.length else server.table

theorem rows_receivingTable (server : KeyServer) (first : Row) :
    (server.receivingTable first).rows.toList = server.table.rows.toList := by
  rw [receivingTable]
  split
  · rename_i none
    rw [Table.rowCount_eq, List.length_eq_zero_iff] at none
    rw [none]
    rfl
  · rfl

/-- Rows that are taken in have the length of the table that receives them, and their entries are
noted in the log and in the positions. -/
theorem of_insert {server after : KeyServer} {keys : List Key} {rows : List Row}
    (inserted : server.insert keys rows = .ok after) :
    keys.length = rows.length ∧ after.configuration = server.configuration ∧
      after.log = server.log.append (batch keys rows) ∧
      after.positions = server.positions.replay (batch keys rows) ∧
      (batch keys rows = [] ∧ after.table = server.table ∨
        ∃ first ∈ rows, (∀ row ∈ rows, row.length = (server.receivingTable first).rowLength) ∧
          (server.receivingTable first).pushAll ((batch keys rows).filterMap Entry.row?) =
            .ok after.table) := by
  simp only [insert] at inserted
  split at inserted
  · cases inserted
  rename_i equal
  rw [not_not] at equal
  refine ⟨equal, ?_⟩
  cases rows with
  | nil =>
      obtain rfl : keys = [] := List.length_eq_zero_iff.mp equal
      have nothing : batch [] [] = [] := List.mergeSort_nil
      cases inserted
      rw [nothing, Log.append, List.append_nil]
      exact ⟨rfl, rfl, rfl, Or.inl ⟨rfl, rfl⟩⟩
  | cons first rest =>
      have receiving : (if server.table.rowCount = 0 then Table.empty first.length
          else server.table) = server.receivingTable first := rfl
      simp only [receiving] at inserted
      split at inserted
      · cases inserted
      rename_i allFit
      have lengths : ∀ row ∈ first :: rest,
          row.length = (server.receivingTable first).rowLength := by
        intro row given
        by_contra mismatch
        have found : ((first :: rest).find? fun row =>
            decide (row.length ≠ (server.receivingTable first).rowLength)).isSome := by
          rw [List.find?_isSome]
          exact ⟨row, given, decide_eq_true mismatch⟩
        obtain ⟨other, isFound⟩ := Option.isSome_iff_exists.mp found
        exact allFit other isFound
      cases pushed : (server.receivingTable first).pushAll
          ((batch keys (first :: rest)).filterMap Entry.row?) with
      | error failure =>
          rw [pushed] at inserted
          cases inserted
      | ok table =>
          rw [pushed] at inserted
          cases inserted
          exact ⟨rfl, rfl, rfl, Or.inr ⟨first, List.mem_cons_self, lengths, pushed⟩⟩

/-- Rows that carry something are noted in the table, too. -/
theorem rows_of_insert {server after : KeyServer} {keys : List Key} {rows : List Row}
    (positive : ∀ row ∈ rows, 0 < row.length) (inserted : server.insert keys rows = .ok after) :
    after.table.rows.toList =
      server.table.rows.toList ++ (batch keys rows).filterMap Entry.row? := by
  obtain ⟨-, -, -, -, ⟨nothing, table⟩ | ⟨first, -, lengths, pushed⟩⟩ := of_insert inserted
  · rw [table, nothing, List.filterMap_nil, List.append_nil]
  · have fits : (server.receivingTable first).Fits ((batch keys rows).filterMap Entry.row?) := by
      intro row member
      have given := mem_of_mem_batch member
      exact ⟨lengths row given, positive row given⟩
    obtain ⟨table, isTable, -, tableRows⟩ := Table.pushAll_of_fits fits
    obtain rfl := Except.ok.inj (pushed.symm.trans isTable)
    rw [tableRows, rows_receivingTable]

namespace Call

/-- Note the entries of a call, whether or not the log gets too long by them. -/
def note (server : KeyServer) : Call → Outcome KeyServer
  | .add keys rows => server.insert keys rows
  | .delete keys => .ok { server with
      positions := server.positions.replay (keys.map Entry.delete : List (Entry Row))
      log := server.log.append (keys.map Entry.delete) }

/-- A call is refused at once, or its entries are noted and the log is compacted if need be. -/
theorem perform_cases {server after : KeyServer} {call : Call} {result : Outcome Unit}
    (performed : call.perform server = (result, after)) :
    (∃ failure, result = .error failure ∧ after = server) ∨
      ∃ noted, call.note server = .ok noted ∧ noted.compactIfOverBound = (result, after) := by
  cases call with
  | add keys rows =>
      rw [perform, KeyServer.add] at performed
      split at performed
      · split at performed
        · rename_i noted inserted
          exact Or.inr ⟨noted, inserted, performed⟩
        · cases performed
          exact Or.inl ⟨_, rfl, rfl⟩
      · cases performed
        exact Or.inl ⟨_, rfl, rfl⟩
  | delete keys =>
      rw [perform, KeyServer.delete] at performed
      split at performed
      · exact Or.inr ⟨_, rfl, performed⟩
      · cases performed
        exact Or.inl ⟨_, rfl, rfl⟩

/-- If the compaction that may follow a call cannot fail, a call that fails changes nothing. -/
theorem eq_of_refused {server after : KeyServer} {call : Call} {failure : Failure}
    (compacts : ∀ noted, call.note server = .ok noted →
      ∃ compacted, noted.compactIfOverBound = (.ok (), compacted))
    (refused : call.perform server = (.error failure, after)) : after = server := by
  rcases perform_cases refused with ⟨-, -, unchanged⟩ | ⟨noted, isNoted, failed⟩
  · exact unchanged
  · obtain ⟨compacted, succeeded⟩ := compacts noted isNoted
    rw [failed, Prod.mk.injEq] at succeeded
    cases succeeded.1

/-- The keys of a call, one for every entry. -/
def keys : Call → List Key
  | .add keys _ => keys
  | .delete keys => keys

theorem of_note {server noted : KeyServer} {call : Call} (isNoted : call.note server = .ok noted) :
    noted.configuration = server.configuration ∧ noted.log = server.log.append call.entries ∧
      call.entries.length = call.keys.length := by
  cases call with
  | add keys rows =>
      obtain ⟨length, configuration, log, -, -⟩ := of_insert isNoted
      refine ⟨configuration, log, ?_⟩
      rw [entries, batch, List.length_mergeSort, List.length_zipWith, ← length, Nat.min_self]
      rfl
  | delete keys =>
      cases isNoted
      exact ⟨rfl, rfl, List.length_map _⟩

end Call

/-- A server is made by noting a first call and compacting the log if need be. -/
theorem of_make {configuration : ServerConfiguration} {keys : List Key} {rows : List Row}
    {server : KeyServer} (made : make configuration keys rows = .ok server) :
    configuration.ratio.isValid = true ∧
      ∃ noted, Call.note (empty configuration) (.add keys rows) = .ok noted ∧
        noted.compactIfOverBound = (.ok (), server) := by
  simp only [make] at made
  split at made
  · cases made
  · rename_i valid
    rw [Bool.not_eq_true', Bool.not_eq_false] at valid
    refine ⟨valid, ?_⟩
    cases inserted : (empty configuration).insert keys rows with
    | error failure =>
        rw [inserted] at made
        cases made
    | ok noted =>
        rw [inserted] at made
        refine ⟨noted, inserted, ?_⟩
        rcases compacted : noted.compactIfOverBound with ⟨failure | _, after⟩
        · simp [compacted, bind, Except.bind] at made
        · have same : after = server := by
            simpa [compacted, bind, Except.bind, pure, Except.pure] using made
          rw [same]

/-- The server after calls in order, of which some may be refused. -/
def afterAll (server : KeyServer) (calls : List Call) : KeyServer :=
  calls.foldl (fun server call => (call.perform server).2) server

namespace Keeps

variable {server : KeyServer} {history : List (Entry Row)}

/-- The entries of a call continue the history. Deletions leave the rows. -/
theorem note (keeps : server.Keeps history) {call : Call} (content : call.HasContent)
    {noted : KeyServer} (isNoted : call.note server = .ok noted) :
    noted.Keeps (history ++ call.entries) ∧
      noted.log.defragmented = server.log.defragmented := by
  have log := (Call.of_note isNoted).2.1
  have defragmented : noted.log.defragmented = server.log.defragmented := by
    rw [log, Log.append]
  refine ⟨?_, defragmented⟩
  cases call with
  | add keys rows =>
      obtain ⟨-, -, -, positions, -⟩ := of_insert isNoted
      exact keeps.append log positions (rows_of_insert content isNoted)
  | delete keys =>
      cases isNoted
      apply keeps.append rfl rfl
      have noRows : (keys.map Entry.delete : List (Entry Row)).filterMap Entry.row? = [] := by
        rw [List.filterMap_map, List.filterMap_eq_nil_iff]
        exact fun key _ => rfl
      rw [Call.entries, noRows, List.append_nil]

/-- A call that succeeds continues the history by its entries, and the compacted prefix does not
end earlier than before. -/
theorem perform (keeps : server.Keeps history) {call : Call} (content : call.HasContent)
    {after : KeyServer} (succeeded : call.perform server = (.ok (), after)) :
    after.Keeps (history ++ call.entries) ∧
      server.log.defragmented ≤ after.log.defragmented := by
  rcases Call.perform_cases succeeded with ⟨failure, refused, -⟩ | ⟨noted, isNoted, compacted⟩
  · cases refused
  · obtain ⟨keepsNoted, defragmented⟩ := keeps.note content isNoted
    obtain ⟨compactedServer, isCompacted, keepsAfter, later⟩ := keepsNoted.compactIfOverBound
    rw [compacted, Prod.mk.injEq] at isCompacted
    rw [isCompacted.2, ← defragmented]
    exact ⟨keepsAfter, later⟩

/-- A call that is refused changes nothing. -/
theorem perform_of_error (keeps : server.Keeps history) {call : Call} (content : call.HasContent)
    {failure : Failure} {after : KeyServer}
    (refused : call.perform server = (.error failure, after)) : after = server := by
  refine Call.eq_of_refused (fun noted isNoted => ?_) refused
  obtain ⟨compacted, succeeded, -, -⟩ := (keeps.note content isNoted).1.compactIfOverBound
  exact ⟨compacted, succeeded⟩

/-- Whether or not a call succeeds, it continues the history. -/
theorem performed (keeps : server.Keeps history) {call : Call} (content : call.HasContent) :
    ∃ more, (call.perform server).2.Keeps (history ++ more) ∧
      server.log.defragmented ≤ (call.perform server).2.log.defragmented := by
  rcases performed : call.perform server with ⟨failure | _, after⟩
  · obtain rfl := keeps.perform_of_error content performed
    exact ⟨[], by rwa [List.append_nil], Nat.le_refl _⟩
  · obtain ⟨keepsAfter, later⟩ := keeps.perform content performed
    exact ⟨call.entries, keepsAfter, later⟩

/-- Calls continue the history, whether or not they succeed. -/
theorem afterAll (keeps : server.Keeps history) {calls : List Call}
    (content : ∀ call ∈ calls, call.HasContent) :
    ∃ more, (server.afterAll calls).Keeps (history ++ more) ∧
      server.log.defragmented ≤ (server.afterAll calls).log.defragmented := by
  induction calls generalizing server history with
  | nil => exact ⟨[], by rwa [List.append_nil], Nat.le_refl _⟩
  | cons call calls ih =>
      obtain ⟨added, keepsNext, later⟩ := keeps.performed (content call List.mem_cons_self)
      obtain ⟨more, keepsAfter, last⟩ :=
        ih keepsNext fun call member => content call (List.mem_cons_of_mem _ member)
      exact ⟨added ++ more, by rwa [← List.append_assoc], later.trans last⟩

end Keeps

/-- A new server keeps the batch that it was given. -/
theorem keeps_make {configuration : ServerConfiguration} {keys : List Key} {rows : List Row}
    (positive : ∀ row ∈ rows, 0 < row.length) {server : KeyServer}
    (made : make configuration keys rows = .ok server) : server.Keeps (batch keys rows) := by
  have content : (Call.add keys rows).HasContent := positive
  obtain ⟨-, noted, isNoted, compacted⟩ := of_make made
  obtain ⟨keepsNoted, -⟩ := (keeps_empty configuration).note content isNoted
  obtain ⟨after, isCompacted, keepsAfter, -⟩ := keepsNoted.compactIfOverBound
  rw [compacted, Prod.mk.injEq] at isCompacted
  rw [isCompacted.2]
  exact keepsAfter

end KeyServer

end PrivateRetrieval
