/-
# Key updates arrive

Whatever form a server chooses for an update, a client reads the same entries out of it, without
the rows. The server finds a form unless an ascending sequence of keys is longer than a code can
say.

The server finds the entries by their places in the log. What they are for is said in timestamps:
they are those from the requested timestamp on, or all of them if that is before the end of the
compacted prefix, and the update names the timestamp of the first one.
-/

import PrivateRetrieval.Proofs.Codes.RiceRoundTrip
import PrivateRetrieval.Proofs.Log.Compaction
import PrivateRetrieval.Store.KeyServer

namespace PrivateRetrieval

variable {ρ : Type}

namespace KeyUpdate

theorem entryOf_forget (entry : Entry ρ) :
    entryOf entry.key entry.isDeletion = entry.forget := rfl

/-- The keys and the bits of entries are the entries without their rows. Bits that follow are
ignored. -/
theorem zipWith_entryOf (entries : List (Entry ρ)) (filling : List Bool) :
    List.zipWith entryOf (entries.map Entry.key) (entries.map Entry.isDeletion ++ filling) =
      entries.map Entry.forget := by
  induction entries with
  | nil => rfl
  | cons entry later ih =>
      rw [List.map_cons, List.map_cons, List.map_cons, List.cons_append, List.zipWith_cons_cons,
        ih, entryOf_forget]

/-- Without a deletion the keys alone are the entries without their rows. -/
theorem map_put_of_noDeletion {entries : List (Entry ρ)}
    (noDeletion : entries.any Entry.isDeletion = false) :
    (entries.map Entry.key).map (fun key => Entry.put key ()) = entries.map Entry.forget := by
  rw [List.map_map]
  apply List.map_congr_left
  intro entry member
  have addition := List.any_eq_false.mp noDeletion entry member
  rw [Function.comp_apply, Entry.forget, if_neg addition]

/-- The form in which keys are sent: in code if they ascend. -/
theorem ofLog_eq_ok {log : Log ρ} {rowLength : Nat} {request : KeyUpdateRequest}
    {update : KeyUpdate} (made : ofLog log rowLength request = .ok update) :
    update.initial = log.next - (selection log request).length ∧
      update.defragmented = log.defragmented ∧ update.rowLength = rowLength ∧
      update.dropHistory = decide (request.next < log.defragmented) ∧
      update.deletions = deletionBits (selection log request) ∧
      update.decodedKeys = .ok ((selection log request).map Entry.key) := by
  rw [ofLog] at made
  set keys := (selection log request).map Entry.key with areKeys
  by_cases ascending : Rice.isAscending keys = true
  · rw [if_pos ascending, if_pos ascending] at made
    cases encoded : Rice.encode keys with
    | error failure =>
        rw [encoded] at made
        cases made
    | ok coded =>
        rw [encoded] at made
        cases made
        refine ⟨rfl, rfl, rfl, rfl, rfl, ?_⟩
        cases coded with
        | none =>
            rw [decodedKeys, Rice.eq_nil_of_encode_eq_none encoded]
        | some coded =>
            rw [decodedKeys]
            exact Rice.decode_of_encode encoded
  · rw [if_neg ascending, if_neg ascending] at made
    cases made
    exact ⟨rfl, rfl, rfl, rfl, rfl, rfl⟩

/-- The bits are left out if there is no deletion, and only then. -/
theorem deletionBits_eq_nil_iff {entries : List (Entry ρ)} :
    deletionBits entries = [] ↔ entries.any Entry.isDeletion = false := by
  rw [deletionBits, ← Bool.not_eq_true]
  by_cases deletes : entries.any Entry.isDeletion = true
  · have filled : 0 < entries.length := by
      obtain ⟨entry, member, -⟩ := List.any_eq_true.mp deletes
      exact List.length_pos_of_mem member
    rw [if_pos deletes, List.eq_nil_iff_length_eq_zero, Bits.length_pack, List.length_map,
      Bits.byteCount]
    exact iff_of_false (by omega) (not_not_intro deletes)
  · rw [if_neg deletes]
    exact iff_of_true rfl deletes

/-- A client reads out of an update what the server selected. -/
theorem entries_of_ofLog {log : Log ρ} {rowLength : Nat} {request : KeyUpdateRequest}
    {update : KeyUpdate} (made : ofLog log rowLength request = .ok update) :
    update.entries = .ok ((selection log request).map Entry.forget) := by
  obtain ⟨-, -, -, -, deletions, keys⟩ := ofLog_eq_ok made
  rw [entries, keys, deletions, deletionBits]
  set selected := selection log request
  by_cases deletes : selected.any Entry.isDeletion = true
  · -- There is a bit for every key, and a last byte that may have bits for none.
    obtain ⟨filling, -, unpacked⟩ := Bits.unpack_pack (selected.map Entry.isDeletion)
    have someByte : (Bits.pack (selected.map Entry.isDeletion)).isEmpty = false := by
      have bits : deletionBits selected ≠ [] := by
        rw [Ne, deletionBits_eq_nil_iff, deletes]
        exact Bool.noConfusion
      rwa [deletionBits, if_pos deletes, ← List.isEmpty_eq_false_iff] at bits
    rw [if_pos deletes]
    simp only [bind, Except.bind]
    rw [if_neg (by simp [someByte]), if_neg (by simp), unpacked, zipWith_entryOf]
    rfl
  · rw [if_neg deletes]
    simp only [bind, Except.bind]
    rw [if_pos (by rfl), map_put_of_noDeletion (Bool.eq_false_iff.mpr deletes)]
    rfl

/-- A server whose log is not too long always answers. -/
theorem exists_ofLog_eq_ok {log : Log ρ} (short : log.entries.length < 2 ^ 31) (rowLength : Nat)
    (request : KeyUpdateRequest) : ∃ update, ofLog log rowLength request = .ok update := by
  have fewer : (selection log request).length ≤ log.entries.length := by
    rw [selection]
    split
    · exact Nat.le_refl _
    · rw [Log.since, List.length_drop]
      exact Nat.sub_le _ _
  rw [ofLog]
  set keys := (selection log request).map Entry.key with areKeys
  by_cases ascending : Rice.isAscending keys = true
  · have keysShort : keys.length ≤ Rice.maxCount + 1 := by
      rw [areKeys, List.length_map, Rice.maxCount]
      omega
    obtain ⟨coded, encoded⟩ := Rice.encode_of_isAscending ascending keysShort
    rw [if_pos ascending, encoded]
    exact ⟨_, rfl⟩
  · rw [if_neg ascending]
    exact ⟨_, rfl⟩

/-- The form of the keys: in code if they ascend and there are any, and otherwise as they are. -/
theorem form_of_ofLog {log : Log ρ} {rowLength : Nat} {request : KeyUpdateRequest}
    {update : KeyUpdate} (made : ofLog log rowLength request = .ok update) {keys : List Key}
    (areKeys : (selection log request).map Entry.key = keys) :
    (keys.Pairwise (· ≤ ·) → (update.coded.isSome ↔ keys ≠ []) ∧ update.keys = []) ∧
      (¬ keys.Pairwise (· ≤ ·) → update.coded = none ∧ update.keys = keys) := by
  subst areKeys
  rw [← Rice.isAscending_iff_pairwise]
  rw [ofLog] at made
  set keys := (selection log request).map Entry.key
  by_cases ascending : Rice.isAscending keys = true
  · refine ⟨fun _ => ?_, fun descends => absurd ascending descends⟩
    rw [if_pos ascending, if_pos ascending] at made
    cases encoded : Rice.encode keys with
    | error failure =>
        rw [encoded] at made
        cases made
    | ok coded =>
        rw [encoded] at made
        cases made
        refine ⟨?_, rfl⟩
        cases coded with
        | none => simp [Rice.eq_nil_of_encode_eq_none encoded]
        | some coded =>
            refine iff_of_true rfl fun none => ?_
            rw [none] at encoded
            cases encoded
  · refine ⟨fun ascends => absurd ascends ascending, fun _ => ?_⟩
    rw [if_neg ascending, if_neg ascending] at made
    cases made
    exact ⟨rfl, rfl⟩

end KeyUpdate

/-! ## Timestamps -/

/-- What a client is told about an entry. -/
def Entry.told (entry : Entry ρ) : Key × Bool := (entry.key, entry.isDeletion)

theorem Entry.told_forget (entry : Entry ρ) : entry.forget.told = entry.told := by
  rw [told, key_forget, isDeletion_forget, told]

/-- As timestamps ascend, those from a timestamp on belong to the entries from a place on. -/
theorem filter_zipIdx {α : Type} (list : List α) (first timestamp : Nat) :
    ((list.zipIdx first).filter fun (_, own) => decide (timestamp ≤ own)) =
      (list.drop (timestamp - first)).zipIdx (max first timestamp) := by
  induction list generalizing first with
  | nil => simp
  | cons head rest ih =>
      rw [List.zipIdx_cons, List.filter_cons]
      by_cases seen : first < timestamp
      · have place : timestamp - first = timestamp - (first + 1) + 1 := by omega
        have start : max (first + 1) timestamp = max first timestamp := by omega
        rw [if_neg (by simpa using seen), ih, place, List.drop_succ_cons, start]
      · have places : timestamp - first = 0 ∧ timestamp - (first + 1) = 0 := by omega
        have starts : max (first + 1) timestamp = first + 1 ∧ max first timestamp = first := by
          omega
        rw [if_pos (by simpa using seen), ih, places.1, places.2, starts.1, starts.2,
          List.drop_zero, List.drop_zero, List.zipIdx_cons]

namespace Log

/-- The entries with their timestamps. -/
def stamped (log : Log ρ) : List (Entry ρ × Nat) := log.entries.zipIdx log.initial

/-- The entries, with their timestamps, for a client that asks for those from a timestamp on. They
are all entries if the timestamp is before the end of the compacted prefix. -/
def due (log : Log ρ) (timestamp : Nat) : List (Entry ρ × Nat) :=
  if timestamp < log.defragmented then log.stamped
  else log.stamped.filter fun (_, own) => decide (timestamp ≤ own)

/-- The entries that a server selects have the timestamps that end with the latest one. -/
theorem due_eq_zipIdx (log : Log ρ) (request : KeyUpdateRequest) :
    log.due request.next = (KeyUpdate.selection log request).zipIdx
      (log.next - (KeyUpdate.selection log request).length) := by
  rw [due, KeyUpdate.selection, stamped, next]
  split
  · rw [Nat.add_sub_cancel]
  · rw [filter_zipIdx, since]
    cases later : log.entries.drop (request.next - log.initial) with
    | nil => rfl
    | cons entry rest =>
        -- There are later entries, so the timestamp is one of the log or before it.
        have length := congrArg List.length later
        rw [List.length_drop, List.length_cons] at length
        rw [List.length_cons]
        congr 1
        omega

end Log

/-- Key updates carry what a client has to learn. Whatever timestamp a client asks for, a server
whose log is not too long has an update, and a client reads out of it the keys of the entries from
that timestamp on, in order, and which of them are deletions. The update names the timestamp of the
first of them, or the next one if there is none. In the update the keys are coded or not, as they
ascend or do not, and the bits are there if there are deletions. -/
theorem KeyServer.keyUpdate_tells_due {server : KeyServer}
    (short : server.log.entries.length < 2 ^ 31) (request : KeyUpdateRequest) :
    ∃ update entries, server.keyUpdate request = .ok update ∧ update.entries = .ok entries ∧
      entries.map Entry.told = (server.log.due request.next).map (fun (entry, _) => entry.told) ∧
      update.initial =
        ((server.log.due request.next).head?.map Prod.snd).getD server.log.next ∧
      (let keys := (server.log.due request.next).map fun (entry, _) => entry.key
       (keys.Pairwise (· ≤ ·) → (update.coded.isSome ↔ keys ≠ []) ∧ update.keys = []) ∧
         (¬ keys.Pairwise (· ≤ ·) → update.coded = none ∧ update.keys = keys)) ∧
      (update.deletions = [] ↔
        ∀ due ∈ server.log.due request.next, due.1.isDeletion = false) := by
  obtain ⟨update, made⟩ := KeyUpdate.exists_ofLog_eq_ok short server.table.rowLength request
  obtain ⟨initial, -, -, -, deletions, -⟩ := KeyUpdate.ofLog_eq_ok made
  have isDue := server.log.due_eq_zipIdx request
  have areSelected :
      (server.log.due request.next).map Prod.fst = KeyUpdate.selection server.log request := by
    rw [isDue, List.zipIdx_map_fst]
  refine ⟨update, _, made, KeyUpdate.entries_of_ofLog made, ?_, ?_, ?_, ?_⟩
  · rw [← areSelected, List.map_map, List.map_map]
    exact List.map_congr_left fun due _ => due.1.told_forget
  · rw [initial, isDue, List.head?_zipIdx]
    cases KeyUpdate.selection server.log request <;> rfl
  · refine KeyUpdate.form_of_ofLog made ?_
    rw [← areSelected, List.map_map]
    rfl
  · rw [deletions, KeyUpdate.deletionBits_eq_nil_iff, ← areSelected]
    simp

/-- A key that was deleted before a smaller key was put comes as it is, with a bit. -/
theorem keyUpdate_tells_deletion :
    ∃ (server : KeyServer) (update : KeyUpdate) (entries : List (Entry Unit)),
      server.log = ⟨2, 1, [.put 7 [1], .delete 7, .put 3 [2]]⟩ ∧
      server.keyUpdate ⟨1, 3⟩ = .ok update ∧ update.entries = .ok entries ∧
      entries.map Entry.told = [(7, true), (3, false)] ∧ update.initial = 3 ∧
      update.keys = [7, 3] ∧ update.deletions ≠ [] := by
  let server : KeyServer :=
    { configuration := {}, positions := .empty, table := .empty 1
      log := ⟨2, 1, [.put 7 [1], .delete 7, .put 3 [2]]⟩ }
  have short : server.log.entries.length < 2 ^ 31 := by decide
  obtain ⟨update, entries, made, read, told, initial, ⟨-, plain⟩, bits⟩ :=
    KeyServer.keyUpdate_tells_due short ⟨1, 3⟩
  exact ⟨server, update, entries, rfl, made, read, told.trans (by decide),
    initial.trans (by decide), (plain (by decide)).2.trans (by decide), bits.not.mpr (by decide)⟩

end PrivateRetrieval
