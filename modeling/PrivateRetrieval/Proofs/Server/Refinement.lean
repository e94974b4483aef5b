/-
# Servers as maps

What a caller of a server can rely on is a map from keys to rows. Adding puts rows under keys, one
after the other in the order of the call, and deleting takes keys away. How often the log was
compacted, where the rows lie and which entries are left does not show in the map.

The specification is `KeyServer.contentsAfter`, which looks at the calls alone. The servers that
there are were made from rows under keys and have carried out calls since.
-/

import PrivateRetrieval.Proofs.Server.Upkeep
import PrivateRetrieval.Store.StoreClient

namespace PrivateRetrieval

namespace KeyServer

/-- The map after a call. -/
def Call.applyTo (contents : Contents Row) : Call → Contents Row
  | .add keys rows =>
      (keys.zip rows).foldl (fun contents (key, row) => Function.update contents key (some row))
        contents
  | .delete keys => keys.foldl (fun contents key => Function.update contents key none) contents

/-- The map after calls in order. -/
def contentsAfter (calls : List Call) : Contents Row :=
  calls.foldl Call.applyTo Contents.empty

/-- Carry out calls in order, if all of them succeed. -/
def carryOut (server : KeyServer) : List Call → Outcome KeyServer
  | [] => .ok server
  | call :: calls =>
      match call.perform server with
      | (.ok (), after) => after.carryOut calls
      | (.error failure, _) => .error failure

/-- The entries of a call have the effect of the call. -/
theorem replay_entries (contents : Contents Row) (call : Call) :
    contents.replay call.entries = call.applyTo contents := by
  cases call with
  | add keys rows =>
      rw [Call.entries, replay_batch, Call.applyTo]
      induction keys generalizing contents rows with
      | nil => rfl
      | cons key keys ih =>
          cases rows with
          | nil => rfl
          | cons row rows => exact ih (contents.apply (.put key row)) rows
  | delete keys =>
      rw [Call.entries, Call.applyTo]
      induction keys generalizing contents with
      | nil => rfl
      | cons key keys ih => exact ih (contents.apply (.delete key))

namespace Keeps

variable {server : KeyServer} {history : List (Entry Row)}

/-- Calls that succeed continue the history by their entries, and the compacted prefix does not end
earlier than before. -/
theorem carryOut (keeps : server.Keeps history) {calls : List Call}
    (content : ∀ call ∈ calls, call.HasContent) {after : KeyServer}
    (done : server.carryOut calls = .ok after) :
    after.Keeps (history ++ calls.flatMap Call.entries) ∧
      server.log.defragmented ≤ after.log.defragmented := by
  induction calls generalizing server history with
  | nil =>
      cases done
      rw [List.flatMap_nil, List.append_nil]
      exact ⟨keeps, Nat.le_refl _⟩
  | cons call calls ih =>
      rw [KeyServer.carryOut] at done
      split at done
      · rename_i next succeeded
        obtain ⟨keepsNext, later⟩ := keeps.perform (content call List.mem_cons_self) succeeded
        obtain ⟨keepsAfter, last⟩ :=
          ih keepsNext (fun call member => content call (List.mem_cons_of_mem _ member)) done
        rw [List.flatMap_cons, ← List.append_assoc]
        exact ⟨keepsAfter, later.trans last⟩
      · cases done

/-- The row of a key is what the history leaves under it. -/
theorem row (keeps : server.Keeps history) (key : Key) :
    server.row key =
      match Contents.empty.replay history key with
      | some row => .ok row
      | none => .error (.keyNotFound key) := by
  have found := keeps.locates.found key
  rw [KeyServer.row]
  cases held : server.positions.find? key with
  | none =>
      rw [held] at found
      rw [← found]
      rfl
  | some position =>
      rw [held, Option.bind_some] at found
      obtain ⟨row, isRow, answered⟩ :=
        Table.row_of_lt (Table.rowCount_eq _ ▸ keeps.locates.inside key position held)
      rw [← found, isRow]
      exact answered

/-- The rows are as many as the additions in the log. -/
theorem rowCount_eq_additionCount (keeps : server.Keeps history) :
    server.rowCount = additionCount server.log.entries := by
  rw [keeps.rowCount, List.length_filterMap_eq_countP, additionCount]
  congr 1
  funext entry
  rcases entry with ⟨key, row | _⟩ <;> rfl

/-- The live keys are those that the history leaves something under. -/
theorem mem_keys_iff (keeps : server.Keeps history) (key : Key) :
    key ∈ server.keys ↔ (Contents.empty.replay history key).isSome := by
  rw [KeyServer.keys, Positions.mem_keys_iff, keeps.locates.isSome_find?]

end Keeps

/-- The entries of calls leave the contents that the calls make. -/
theorem replay_flatMap_entries (contents : Contents Row) (calls : List Call) :
    contents.replay (calls.flatMap Call.entries) = calls.foldl Call.applyTo contents := by
  induction calls generalizing contents with
  | nil => rfl
  | cons call calls ih =>
      rw [List.flatMap_cons, Contents.replay_append, replay_entries, ih, List.foldl_cons]

/-- A server answers like a map that its calls change one after the other, and after every call its
table holds the rows that its log puts and its positions are those of its log. -/
theorem row_eq_contentsAfter {configuration : ServerConfiguration} {keys : List Key}
    {rows : List Row} {calls : List Call} {start server : KeyServer}
    (content : ∀ call ∈ Call.add keys rows :: calls, call.HasContent)
    (made : make configuration keys rows = .ok start)
    (done : start.carryOut calls = .ok server) :
    (∀ key, server.row key =
      match contentsAfter (.add keys rows :: calls) key with
      | some row => .ok row
      | none => .error (.keyNotFound key)) ∧
    server.table.rows.toList = server.log.entries.filterMap Entry.row? ∧
    server.positions = Positions.empty.replay server.log.entries ∧
    server.rowCount = additionCount server.log.entries ∧
    server.positions.rowCount = server.rowCount ∧
    server.keyCount = server.keys.length ∧ server.keys.Nodup ∧
    ∀ key, key ∈ server.keys ↔ (contentsAfter (.add keys rows :: calls) key).isSome := by
  have keepsStart := keeps_make (content _ List.mem_cons_self) made
  obtain ⟨keeps, -⟩ :=
    keepsStart.carryOut (fun call member => content call (List.mem_cons_of_mem _ member)) done
  have contents := replay_flatMap_entries Contents.empty (.add keys rows :: calls)
  rw [List.flatMap_cons, Call.entries] at contents
  rw [contentsAfter, ← contents]
  refine ⟨keeps.row, keeps.rows, keeps.positions, keeps.rowCount_eq_additionCount, ?_, ?_, ?_,
    keeps.mem_keys_iff⟩
  · rw [keeps.locates.rowCount, rowCount, Table.rowCount_eq]
  · exact (Positions.length_keys server.positions).symm
  · exact Positions.nodup_keys server.positions

/-- A batch that repeats a key, a key that is put again, a deletion of a key and of one that was
never there, and a ratio that has the log compacted again and again. -/
theorem row_after_repeated_keys :
    ∃ start server, make { ratio := .finite 1 } [2, 1, 2] [[1], [2], [3]] = .ok start ∧
      start.carryOut [.add [3, 2] [[4], [5]], .delete [1, 7]] = .ok server ∧
      server.row 2 = .ok [5] ∧ server.row 1 = .error (.keyNotFound 1) := by
  have works : (make { ratio := .finite 1 } [2, 1, 2] [[1], [2], [3]] >>= fun start =>
      start.carryOut [.add [3, 2] [[4], [5]], .delete [1, 7]]).isOk = true := by cbv
  cases made : make { ratio := .finite 1 } [2, 1, 2] [[1], [2], [3]] with
  | error failure =>
      rw [made] at works
      cases works
  | ok start =>
      rw [made] at works
      cases done : start.carryOut [.add [3, 2] [[4], [5]], .delete [1, 7]] with
      | error failure =>
          have refused : (start.carryOut [.add [3, 2] [[4], [5]], .delete [1, 7]]).isOk = true :=
            works
          rw [done] at refused
          cases refused
      | ok server =>
          have content : ∀ call ∈ [Call.add [2, 1, 2] [[1], [2], [3]], .add [3, 2] [[4], [5]],
              .delete [1, 7]], call.HasContent := by
            simp [Call.HasContent]
          have rows := (row_eq_contentsAfter content made done).1
          exact ⟨start, server, rfl, done, rows 2, rows 1⟩

end KeyServer

end PrivateRetrieval
