/-
# What a log says about keys

A list of entries leaves a row under some keys and nothing under the others. Two things depend on
the entries only through these contents: compaction keeps them, and so does the stable sorting of a
batch by its keys, since it leaves the entries of every single key in their order.

Positions are a second reading of the same entries. They locate the contents in the list of all
rows that the entries put, live and dead.
-/

import PrivateRetrieval.Proofs.Log.Compaction
import PrivateRetrieval.Store.Positions

namespace PrivateRetrieval

variable {ρ : Type}

/-- The row under every key, if there is one. -/
abbrev Contents (ρ : Type) := Key → Option ρ

namespace Contents

/-- Nothing under any key. -/
def empty : Contents ρ := fun _ => none

/-- The contents after one change. -/
def apply (contents : Contents ρ) (entry : Entry ρ) : Contents ρ :=
  Function.update contents entry.key entry.row?

/-- The contents after changes in order. -/
def replay (contents : Contents ρ) (entries : List (Entry ρ)) : Contents ρ :=
  entries.foldl apply contents

@[simp]
theorem replay_nil (contents : Contents ρ) : contents.replay [] = contents := rfl

@[simp]
theorem replay_cons (contents : Contents ρ) (entry : Entry ρ) (later : List (Entry ρ)) :
    contents.replay (entry :: later) = (contents.apply entry).replay later := rfl

theorem replay_append (contents : Contents ρ) (front back : List (Entry ρ)) :
    contents.replay (front ++ back) = (contents.replay front).replay back :=
  List.foldl_append

theorem apply_of_eq (contents : Contents ρ) {entry : Entry ρ} {key : Key}
    (same : entry.key = key) : contents.apply entry key = entry.row? := by
  rw [apply, same, Function.update_self]

theorem apply_of_ne (contents : Contents ρ) {entry : Entry ρ} {key : Key}
    (other : entry.key ≠ key) : contents.apply entry key = contents key :=
  Function.update_of_ne (Ne.symm other) _ _

/-- What entries leave under a key depends only on what was under that key. -/
theorem replay_congr {first second : Contents ρ} {key : Key} (equal : first key = second key)
    (entries : List (Entry ρ)) : first.replay entries key = second.replay entries key := by
  induction entries generalizing first second with
  | nil => exact equal
  | cons entry later ih =>
      apply ih
      by_cases same : entry.key = key
      · rw [apply_of_eq _ same, apply_of_eq _ same]
      · rw [apply_of_ne _ same, apply_of_ne _ same, equal]

/-- Entries that do not speak of a key leave it as it is. -/
theorem replay_of_unspoken (contents : Contents ρ) {entries : List (Entry ρ)} {key : Key}
    (unspoken : entries.any (·.key == key) = false) :
    contents.replay entries key = contents key := by
  induction entries generalizing contents with
  | nil => rfl
  | cons entry later ih =>
      rw [List.any_cons, Bool.or_eq_false_iff, beq_eq_false_iff_ne] at unspoken
      rw [replay_cons, ih _ unspoken.2, apply_of_ne _ unspoken.1]

/-- Entries that speak of a key leave nothing of what was under it. -/
theorem replay_of_spoken (first second : Contents ρ) {entries : List (Entry ρ)} {key : Key}
    (spoken : entries.any (·.key == key) = true) :
    first.replay entries key = second.replay entries key := by
  induction entries generalizing first second with
  | nil => cases spoken
  | cons entry later ih =>
      rw [List.any_cons, Bool.or_eq_true, beq_iff_eq] at spoken
      rcases spoken with same | spoken
      · have equal : first.apply entry key = second.apply entry key := by
          rw [apply_of_eq _ same, apply_of_eq _ same]
        exact replay_congr equal later
      · exact ih _ _ spoken

/-- What entries leave under a key is what those that speak of it leave. -/
theorem replay_filter (contents : Contents ρ) (entries : List (Entry ρ)) (key : Key) :
    contents.replay (entries.filter (·.key == key)) key = contents.replay entries key := by
  induction entries generalizing contents with
  | nil => rfl
  | cons entry later ih =>
      by_cases same : entry.key = key
      · rw [List.filter_cons_of_pos (by simp [same]), replay_cons, replay_cons, ih]
      · rw [List.filter_cons_of_neg (by simp [same]), replay_cons, ih]
        exact replay_congr (apply_of_ne _ same).symm later

/-- Compaction keeps the contents. -/
theorem replay_survivors (entries : List (Entry ρ)) :
    empty.replay (survivors entries) = empty.replay entries := by
  induction entries with
  | nil => rfl
  | cons entry later ih =>
      funext key
      have belongs := congrFun ih key
      rw [survivors]
      split
      · -- A dropped entry is overwritten later, or it is a deletion of a key that nothing is under.
        rename_i dropped
        rw [belongs, replay_cons]
        by_cases spoken : later.any (·.key == key) = true
        · exact replay_of_spoken _ _ spoken
        · have unspoken := Bool.eq_false_iff.mpr spoken
          rw [replay_of_unspoken _ unspoken, replay_of_unspoken _ unspoken]
          by_cases same : entry.key = key
          · rw [same, unspoken, Bool.or_false] at dropped
            rw [apply_of_eq _ same, Entry.row?]
            rw [Entry.isDeletion] at dropped
            split at dropped
            · cases dropped
            · rfl
          · rw [apply_of_ne _ same]
      · -- A kept entry is the only one that speaks of its key, before and after.
        rename_i kept
        rw [Bool.or_eq_true, not_or] at kept
        rw [replay_cons, replay_cons]
        by_cases same : entry.key = key
        · have unspoken : later.any (·.key == key) = false := by
            rw [← same]
            exact Bool.eq_false_iff.mpr kept.2
          have unspokenToo : (survivors later).any (·.key == key) = false := by
            rw [List.any_eq_false] at unspoken ⊢
            exact fun other survived =>
              unspoken other ((survivors_sublist later).subset survived)
          rw [replay_of_unspoken _ unspoken, replay_of_unspoken _ unspokenToo]
        · have untouched : empty.apply entry key = (empty : Contents ρ) key := apply_of_ne _ same
          rw [replay_congr untouched, replay_congr untouched, belongs]

/-- Entries that put rows leave one under each of their keys. -/
theorem isSome_replay_of_puts {entries : List (Entry ρ)}
    (puts : ∀ entry ∈ entries, entry.isDeletion = false) (contents : Contents ρ) (key : Key) :
    (contents.replay entries key).isSome ↔
      key ∈ entries.map Entry.key ∨ (contents key).isSome := by
  induction entries generalizing contents with
  | nil => simp
  | cons entry later ih =>
      have isPut : entry.row?.isSome := by
        have isPut := puts entry List.mem_cons_self
        rcases entry with ⟨key, row | _⟩
        · rfl
        · cases isPut
      rw [replay_cons, ih fun other member => puts other (List.mem_cons_of_mem _ member),
        List.map_cons, List.mem_cons]
      by_cases same : entry.key = key
      · simp [apply_of_eq _ same, isPut, same]
      · simp [apply_of_ne _ same, Ne.symm same]

/-- There is one survivor for every key that has a row. -/
theorem mem_keys_survivors (entries : List (Entry ρ)) (key : Key) :
    key ∈ (survivors entries).map Entry.key ↔ (empty.replay entries key).isSome := by
  rw [← replay_survivors, isSome_replay_of_puts (isDeletion_of_mem_survivors entries)]
  simp [empty]

/-- A compacted front leaves the same contents. -/
theorem replay_survivors_append (front back : List (Entry ρ)) :
    empty.replay (survivors front ++ back) = empty.replay (front ++ back) := by
  rw [replay_append, replay_survivors, ← replay_append]

/-- The contents of a log are those of its history. -/
theorem replay_ofHistory {history : List (Entry ρ)} {cut : Nat} (inside : cut ≤ history.length) :
    empty.replay (Log.ofHistory history cut).entries = empty.replay history := by
  rw [Log.entries_ofHistory inside, replay_survivors_append, List.take_append_drop]

end Contents

/-! ## Positions -/

namespace Positions

theorem find?_empty (key : Key) : empty.find? key = none := by
  rw [find?, empty]
  exact Std.TreeMap.getElem?_emptyc

/-- A change moves its own key, to the next free position or away, and no other. -/
theorem find?_apply (positions : Positions) (entry : Entry ρ) (key : Key) :
    (positions.apply entry).find? key =
      if entry.key = key then entry.row?.map fun _ => positions.rowCount
      else positions.find? key := by
  have compared : compare entry.key key = .eq ↔ entry.key = key := Std.compare_eq_iff_eq
  rw [apply, Entry.row?]
  cases entry.change with
  | put row => simp [find?, Std.TreeMap.getElem?_insert, compared]
  | delete => simp [find?, Std.TreeMap.getElem?_erase, compared]

theorem rowCount_apply (positions : Positions) (entry : Entry ρ) :
    (positions.apply entry).rowCount = positions.rowCount + entry.row?.toList.length := by
  rw [apply, Entry.row?]
  cases entry.change <;> rfl

/-- Replaying does not look at rows. -/
theorem replay_map_forget (positions : Positions) (entries : List (Entry ρ)) :
    positions.replay (entries.map Entry.forget) = positions.replay entries := by
  induction entries generalizing positions with
  | nil => rfl
  | cons entry later ih =>
      have step : positions.apply entry.forget = positions.apply entry := by
        rw [Entry.forget, Entry.isDeletion]
        rcases entry with ⟨key, row | _⟩ <;> rfl
      show (positions.apply entry.forget).replay _ = (positions.apply entry).replay _
      rw [step, ih]

/-- Positions locate contents in a list of rows: a key is live exactly if it has a position, and
then its row stands there. -/
structure Locates (positions : Positions) (rows : List ρ) (contents : Contents ρ) : Prop where
  rowCount : positions.rowCount = rows.length
  inside : ∀ key position, positions.find? key = some position → position < rows.length
  found : ∀ key, (positions.find? key).bind (rows[·]?) = contents key

namespace Locates

theorem empty : (Positions.empty).Locates [] (Contents.empty : Contents ρ) where
  rowCount := rfl
  inside key position held := by
    rw [find?_empty] at held
    cases held
  found key := by
    rw [find?_empty]
    rfl

variable {positions : Positions} {rows : List ρ} {contents : Contents ρ}

/-- One change keeps positions right: its row, if it puts one, becomes the last row. -/
theorem apply (locates : positions.Locates rows contents) (entry : Entry ρ) :
    (positions.apply entry).Locates (rows ++ entry.row?.toList) (contents.apply entry) where
  rowCount := by
    rw [rowCount_apply, locates.rowCount, List.length_append]
  inside key position held := by
    rw [find?_apply] at held
    split at held
    · cases isRow : entry.row? with
      | none =>
          rw [isRow] at held
          cases held
      | some row =>
          rw [isRow, Option.map_some, Option.some.injEq, locates.rowCount] at held
          simp [← held]
    · have before := locates.inside key position held
      rw [List.length_append]
      omega
  found key := by
    rw [find?_apply]
    split
    · rename_i same
      rw [Contents.apply_of_eq _ same]
      cases entry.row? with
      | none => rfl
      | some row => simp [locates.rowCount]
    · rename_i other
      rw [Contents.apply_of_ne _ other, ← locates.found key]
      cases held : positions.find? key with
      | none => rfl
      | some position =>
          exact List.getElem?_append_left (locates.inside key position held)

/-- Changes in order keep positions right. -/
theorem replay (locates : positions.Locates rows contents) (entries : List (Entry ρ)) :
    (positions.replay entries).Locates (rows ++ entries.filterMap Entry.row?)
      (contents.replay entries) := by
  induction entries generalizing positions rows contents with
  | nil =>
      rw [List.filterMap_nil, List.append_nil]
      exact locates
  | cons entry later ih =>
      have laid : rows ++ (entry :: later).filterMap Entry.row? =
          (rows ++ entry.row?.toList) ++ later.filterMap Entry.row? := by
        rw [List.append_assoc]
        cases isRow : entry.row? <;> simp [isRow]
      rw [laid]
      exact ih (locates.apply entry)

/-- A key is live exactly if it has a position. -/
theorem isSome_find? (locates : positions.Locates rows contents) (key : Key) :
    (positions.find? key).isSome = (contents key).isSome := by
  rw [← locates.found key]
  cases held : positions.find? key with
  | none => rfl
  | some position =>
      rw [Option.bind_some, List.getElem?_eq_getElem (locates.inside key position held)]
      rfl

end Locates

/-- The positions of a log locate its contents in its rows. -/
theorem locates_replay (entries : List (Entry ρ)) :
    (empty.replay entries).Locates (entries.filterMap Entry.row?)
      (Contents.empty.replay entries) :=
  Locates.empty.replay entries

/-- The live keys are those that have a position, each of them listed once. -/
theorem mem_keys_iff (positions : Positions) (key : Key) :
    key ∈ positions.keys ↔ (positions.find? key).isSome := by
  rw [keys, find?, Std.TreeMap.mem_keys, Std.TreeMap.isSome_getElem?_iff_mem]

theorem nodup_keys (positions : Positions) : positions.keys.Nodup :=
  Std.TreeMap.nodup_keys

theorem length_keys (positions : Positions) : positions.keys.length = positions.liveCount :=
  Std.TreeMap.length_keys

end Positions

end PrivateRetrieval
