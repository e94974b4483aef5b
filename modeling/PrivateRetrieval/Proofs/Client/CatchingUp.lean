/-
# Catching up

A client knows a part of a server's history: all of it up to some timestamp, with a prefix
compacted. The server has the whole history, and has compacted at least as far. There are three
ways to catch up, and which one is taken depends on two comparisons of timestamps only.

* The server has not compacted since. The new entries continue the client's log.
* The server has compacted, but only what the client has seen. One compaction of the client's log
  replaces all of the server's, and the new entries continue it.
* The server has compacted beyond what the client has seen. The client takes the server's log.

In every case the update is accepted, and afterwards the two logs agree, and so do the positions.
-/

import PrivateRetrieval.Proofs.Client.KeyUpdates
import PrivateRetrieval.Proofs.Server.Upkeep
import PrivateRetrieval.Store.StoreClient

namespace PrivateRetrieval

theorem Log.next_forget {ρ : Type} (log : Log ρ) : log.forget.next = log.next := by
  rw [next, forget, List.length_map, next]

/-- Every addition takes one position. -/
theorem Positions.rowCount_replay {ρ : Type} (positions : Positions) (entries : List (Entry ρ)) :
    (positions.replay entries).rowCount = positions.rowCount + additionCount entries := by
  induction entries generalizing positions with
  | nil => rfl
  | cons entry later ih =>
      show ((positions.apply entry).replay later).rowCount = _
      rw [ih, rowCount_apply, additionCount, additionCount, List.countP_cons, Entry.row?,
        Entry.isDeletion]
      cases entry.change with
      | put row =>
          simp
          omega
      | delete => simp

theorem additionCount_map_forget {ρ : Type} (entries : List (Entry ρ)) :
    additionCount (entries.map Entry.forget) = additionCount entries := by
  rw [additionCount, List.countP_map, additionCount]
  congr 1
  funext entry
  rw [Function.comp_apply, Entry.isDeletion_forget]

namespace StoreClient

/-- A client knows a history up to a timestamp. -/
structure Knows (client : StoreClient) (history : List (Entry Row)) (known : Nat) : Prop where
  within : known ≤ history.length
  /-- The compacted prefix ends within what the client knows. -/
  inside : client.log.defragmented ≤ known
  log : client.log =
    Log.ofHistory ((history.take known).map Entry.forget) client.log.defragmented
  positions : client.positions = Positions.empty.replay client.log.entries

/-- A client agrees with a server: the logs have the same timestamps and the same entries, up to
the rows, and the positions are the same. -/
structure AgreesWith (client : StoreClient) (server : KeyServer) : Prop where
  log : client.log = server.log.forget
  positions : client.positions = server.positions

namespace Knows

variable {client : StoreClient} {history : List (Entry Row)} {known : Nat}

theorem insideTake (knows : client.Knows history known) :
    client.log.defragmented ≤ ((history.take known).map Entry.forget).length := by
  rw [List.length_map, List.length_take, Nat.min_eq_left knows.within]
  exact knows.inside

/-- The next entry that a client asks for is the first one that it does not know. -/
theorem next (knows : client.Knows history known) : client.log.next = known := by
  rw [knows.log, Log.next_ofHistory knows.insideTake, List.length_map, List.length_take,
    Nat.min_eq_left knows.within]

theorem initial_le (knows : client.Knows history known) :
    client.log.initial ≤ client.log.defragmented := by
  have ordered := Log.initial_le_defragmented_ofHistory knows.insideTake
  rwa [← knows.log] at ordered

/-- More of the history may follow. -/
theorem append (knows : client.Knows history known) (more : List (Entry Row)) :
    client.Knows (history ++ more) known where
  within := by
    rw [List.length_append]
    exact Nat.le_add_right_of_le knows.within
  inside := knows.inside
  log := by
    rw [List.take_append_of_le_length knows.within]
    exact knows.log
  positions := knows.positions

end Knows

/-- Who agrees with a server knows all of its history. -/
theorem AgreesWith.knows {client : StoreClient} {server : KeyServer} {history : List (Entry Row)}
    (agrees : client.AgreesWith server) (keeps : server.Keeps history) :
    client.Knows history history.length where
  within := Nat.le_refl _
  inside := by
    rw [agrees.log]
    exact keeps.inside
  log := by
    rw [List.take_length, agrees.log]
    conv_lhs => rw [keeps.log, Log.forget_ofHistory keeps.inside]
    rfl
  positions := by
    rw [agrees.log, Log.forget, Positions.replay_map_forget, agrees.positions, keeps.positions]

/-- A client that knows nothing has an empty log and no rows in layers. -/
structure KnowsNothing (client : StoreClient) : Prop where
  log : client.log = .empty
  positions : client.positions = .empty
  slots : client.layers.slots = []
  total : client.layers.total = 0

theorem knowsNothing_forget (client : StoreClient) : (client.forget .empty).KnowsNothing :=
  ⟨rfl, rfl, rfl, rfl⟩

theorem knowsNothing_of_make {configuration : ClientConfiguration} {client : StoreClient}
    (made : make configuration = .ok client) : client.KnowsNothing := by
  rw [make] at made
  split at made
  · cases made
    exact ⟨rfl, rfl, rfl, rfl⟩
  · cases made

/-- Who knows nothing knows the beginning of any history. -/
theorem KnowsNothing.knows {client : StoreClient} (nothing : client.KnowsNothing)
    (history : List (Entry Row)) : client.Knows history 0 := by
  refine ⟨Nat.zero_le _, ?_, ?_, ?_⟩
  · rw [nothing.log]
    exact Nat.le_refl 0
  · rw [nothing.log]
    rfl
  · rw [nothing.log, nothing.positions]
    rfl

theorem KnowsNothing.agreesWith {client : StoreClient} (nothing : client.KnowsNothing) :
    client.AgreesWith (KeyServer.empty {}) :=
  ⟨nothing.log, nothing.positions⟩

/-- How an update changes a client's layers: it drops them, and all rows must be placed anew, or it
leaves them, and the new rows must be placed. It leaves them only if the server has not compacted
since. -/
def Retains (client after : StoreClient) (server : KeyServer) (count : Nat) : Prop :=
  (after.layers = client.layers.reset ∧ count = server.positions.rowCount) ∨
    (after.layers = client.layers ∧ client.log.defragmented = server.log.defragmented ∧
      client.positions.rowCount + count = server.positions.rowCount)

/-- An update that continues the log and can be read is taken up. -/
theorem process_eq {client : StoreClient} {update : KeyUpdate} {entries : List (Entry Unit)}
    (continues : update.initial = (client.dropHistory update).log.next)
    (read : update.entries = .ok entries) :
    ∃ statistics, client.process update =
      let (count, after) :=
        { client.dropHistory update with statistics }.takeUp entries update.defragmented
      (.ok count, after) := by
  rw [process, if_neg (not_not.mpr continues), read]
  exact ⟨_, rfl⟩

theorem takeUp_of_lt {client : StoreClient} {defragmented : Nat}
    (further : client.log.defragmented < defragmented) (entries : List (Entry Unit)) :
    client.takeUp entries defragmented =
      let log := (client.log.compact (defragmented - client.log.initial)).append entries
      (additionCount log.entries,
        { client.forget log with positions := Positions.empty.replay log.entries }) :=
  if_pos further

theorem takeUp_of_le {client : StoreClient} {defragmented : Nat}
    (notFurther : defragmented ≤ client.log.defragmented) (entries : List (Entry Unit)) :
    client.takeUp entries defragmented =
      (additionCount entries,
        { client with
          log := client.log.append entries
          positions := client.positions.replay entries }) :=
  if_neg (Nat.not_lt.mpr notFurther)

section

variable {client : StoreClient} {server : KeyServer} {history : List (Entry Row)} {known : Nat}
  {update : KeyUpdate}

/-- The server has compacted beyond what the client knows: the client begins anew. -/
theorem process_of_lt (knows : client.Knows history known) (keeps : server.Keeps history)
    (made : server.keyUpdate client.updateRequest = .ok update)
    (behind : known < server.log.defragmented) :
    ∃ count after, client.process update = (.ok count, after) ∧ after.AgreesWith server ∧
      client.Retains after server count := by
  obtain ⟨initial, defragmented, -, dropped, -, -⟩ := KeyUpdate.ofLog_eq_ok made
  have read := KeyUpdate.entries_of_ofLog made
  have selected : KeyUpdate.selection server.log client.updateRequest = server.log.entries := by
    rw [KeyUpdate.selection, if_pos (by rw [updateRequest, knows.next]; exact behind)]
  have drops : update.dropHistory = true := by
    rw [dropped, updateRequest, knows.next]
    exact decide_eq_true behind
  have first : update.initial = server.log.initial := by
    rw [initial, selected, Log.next, Nat.add_sub_cancel]
  rw [selected] at read
  have continues : update.initial = (client.dropHistory update).log.next := by
    rw [dropHistory, if_pos drops]
    rfl
  obtain ⟨statistics, processed⟩ := process_eq continues read
  rw [processed, dropHistory, if_pos drops,
    takeUp_of_le (by rw [defragmented]; exact Nat.le_refl _)]
  refine ⟨_, _, rfl, ⟨?_, ?_⟩, Or.inl ⟨rfl, ?_⟩⟩
  · show Log.mk update.initial update.defragmented ([] ++ _) = server.log.forget
    rw [first, defragmented, List.nil_append, Log.forget]
  · show Positions.empty.replay _ = server.positions
    rw [Positions.replay_map_forget, keeps.positions]
  · rw [additionCount_map_forget, keeps.positions, Positions.rowCount_replay]
    exact (Nat.zero_add _).symm

theorem forget_log_eq (keeps : server.Keeps history) : server.log.forget =
    Log.ofHistory (history.map Entry.forget) server.log.defragmented := by
  conv_lhs => rw [keeps.log, Log.forget_ofHistory keeps.inside]

theorem positions_eq (keeps : server.Keeps history) :
    server.positions = Positions.empty.replay server.log.forget.entries := by
  rw [Log.forget, Positions.replay_map_forget, keeps.positions]

theorem map_forget_take_append_drop (history : List (Entry Row)) (known : Nat) :
    (history.take known).map Entry.forget ++ (history.drop known).map Entry.forget =
      history.map Entry.forget := by
  rw [← List.map_append, List.take_append_drop]

/-- One compaction of the client's log stands for all those of the server. -/
theorem compact_append_eq_forget (knows : client.Knows history known)
    (keeps : server.Keeps history) (ahead : server.log.defragmented ≤ known)
    (further : client.log.defragmented < server.log.defragmented) :
    (client.log.compact (server.log.defragmented - client.log.initial)).append
      ((history.drop known).map Entry.forget) = server.log.forget := by
  have ordered := knows.initial_le
  have covers : client.log.compactedCount ≤
      server.log.defragmented - client.log.initial := by
    rw [Log.compactedCount]
    omega
  have reaches : server.log.defragmented ≤ ((history.take known).map Entry.forget).length := by
    rw [List.length_map, List.length_take, Nat.min_eq_left knows.within]
    exact ahead
  have compacted : client.log.compact (server.log.defragmented - client.log.initial) =
      Log.ofHistory ((history.take known).map Entry.forget) server.log.defragmented := by
    have once := Log.compact_ofHistory knows.insideTake (knows.log ▸ covers)
    rw [← knows.log] at once
    rw [once]
    congr 1
    omega
  rw [compacted, Log.append_ofHistory reaches, map_forget_take_append_drop, forget_log_eq keeps]

/-- If the compacted prefix is the same, the logs only differ by the new entries. -/
theorem append_eq_forget (knows : client.Knows history known) (keeps : server.Keeps history)
    (same : client.log.defragmented = server.log.defragmented) :
    client.log.append ((history.drop known).map Entry.forget) = server.log.forget := by
  conv_lhs => rw [knows.log, Log.append_ofHistory knows.insideTake,
    map_forget_take_append_drop, same]
  rw [forget_log_eq keeps]

/-- The server has compacted no further than the client knows: the client compacts as far, if it
has not yet, and goes on. -/
theorem process_of_le (knows : client.Knows history known) (keeps : server.Keeps history)
    (earlier : client.log.defragmented ≤ server.log.defragmented)
    (made : server.keyUpdate client.updateRequest = .ok update)
    (ahead : server.log.defragmented ≤ known) :
    ∃ count after, client.process update = (.ok count, after) ∧ after.AgreesWith server ∧
      client.Retains after server count := by
  obtain ⟨initial, defragmented, -, dropped, -, -⟩ := KeyUpdate.ofLog_eq_ok made
  have read := KeyUpdate.entries_of_ofLog made
  have selected :
      KeyUpdate.selection server.log client.updateRequest = history.drop known := by
    rw [KeyUpdate.selection, updateRequest, knows.next, if_neg (Nat.not_lt.mpr ahead), keeps.log,
      Log.since_ofHistory keeps.inside ahead]
  have stays : client.dropHistory update = client := by
    have keepsHistory : update.dropHistory = false := by
      rw [dropped, updateRequest, knows.next]
      exact decide_eq_false (Nat.not_lt.mpr ahead)
    rw [dropHistory, if_neg (by rw [keepsHistory]; exact Bool.false_ne_true)]
  have within := knows.within
  have continues : update.initial = (client.dropHistory update).log.next := by
    rw [stays, knows.next, initial, selected, keeps.next, List.length_drop]
    omega
  rw [selected] at read
  obtain ⟨statistics, processed⟩ := process_eq continues read
  rw [processed, stays, defragmented]
  rcases Nat.lt_or_ge client.log.defragmented server.log.defragmented with further | notFurther
  · have log := compact_append_eq_forget knows keeps ahead further
    rw [takeUp_of_lt (by exact further)]
    refine ⟨_, _, rfl, ⟨log, ?_⟩, Or.inl ⟨rfl, ?_⟩⟩
    · show Positions.empty.replay _ = server.positions
      rw [log, positions_eq keeps]
    · show additionCount (Log.append _ _).entries = _
      rw [log, positions_eq keeps, Positions.rowCount_replay]
      exact (Nat.zero_add _).symm
  · have same := Nat.le_antisymm earlier notFurther
    have log := append_eq_forget knows keeps same
    have positions : client.positions.replay ((history.drop known).map Entry.forget) =
        server.positions := by
      rw [positions_eq keeps, ← log, Log.append, Positions.replay_append, knows.positions]
    rw [takeUp_of_le (by exact notFurther)]
    refine ⟨_, _, rfl, ⟨log, positions⟩, Or.inr ⟨rfl, same, ?_⟩⟩
    rw [← positions, Positions.rowCount_replay]

/-- An honest update is accepted, and after it the client agrees with the server. -/
theorem process_keyUpdate (knows : client.Knows history known) (keeps : server.Keeps history)
    (earlier : client.log.defragmented ≤ server.log.defragmented)
    (made : server.keyUpdate client.updateRequest = .ok update) :
    ∃ count after, client.process update = (.ok count, after) ∧ after.AgreesWith server ∧
      client.Retains after server count := by
  rcases Nat.lt_or_ge known server.log.defragmented with behind | ahead
  · exact process_of_lt knows keeps made behind
  · exact process_of_le knows keeps earlier made ahead

end

end StoreClient

end PrivateRetrieval
