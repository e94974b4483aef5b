/-
# Logs of changes

A log lists the changes of a key-value store in order. Entries are numbered by timestamps. From
time to time a prefix of the log is compacted: what was overwritten or deleted within the prefix
is dropped, and so are the deletions. The entries that stay move up, so compaction takes away as
many timestamps at the beginning as it drops entries. No timestamp after the prefix changes its
entry, and the timestamp of the next entry stays what it was.

A log remembers the end of the prefix that was compacted last. Whoever has read the log up to a
timestamp before that end can no longer catch up from there.
-/

import PrivateRetrieval.Failure

namespace PrivateRetrieval

/-- What happens to a key. The type of rows is a parameter: servers keep rows in their logs, and
clients only learn keys. -/
inductive Change (ρ : Type) where
  | put (row : ρ)
  | delete
  deriving DecidableEq, Repr

/-- A change of a key. -/
structure Entry (ρ : Type) where
  key : Key
  change : Change ρ
  deriving DecidableEq, Repr

namespace Entry

variable {ρ : Type}

/-- The entry that puts a row under a key. -/
def put (key : Key) (row : ρ) : Entry ρ := ⟨key, .put row⟩

/-- The entry that deletes a key. -/
def delete (key : Key) : Entry ρ := ⟨key, .delete⟩

/-- Whether an entry deletes its key. -/
def isDeletion (entry : Entry ρ) : Bool :=
  match entry.change with
  | .put _ => false
  | .delete => true

/-- The row that an entry puts. -/
def row? (entry : Entry ρ) : Option ρ :=
  match entry.change with
  | .put row => some row
  | .delete => none

end Entry

/-- The entries that still count at the end of a list: those that put a row under a key of which
nothing is said later. -/
def survivors {ρ : Type} : List (Entry ρ) → List (Entry ρ)
  | [] => []
  | entry :: later =>
      if entry.isDeletion || later.any (·.key == entry.key) then survivors later
      else entry :: survivors later

/-- Compact the first so many entries of a list. -/
def compactPrefix {ρ : Type} (entries : List (Entry ρ)) (count : Nat) : List (Entry ρ) :=
  survivors (entries.take count) ++ entries.drop count

/-- Compact the first so many entries of a list that has so many. -/
def compactPrefix? {ρ : Type} (entries : List (Entry ρ)) (count : Nat) :
    Outcome (List (Entry ρ)) :=
  if count ≤ entries.length then .ok (compactPrefix entries count)
  else .error (.breach .cutBeyondEnd)

/-- A log of changes. -/
structure Log (ρ : Type) where
  /-- The timestamp of the first entry. -/
  initial : Nat
  /-- The end of the prefix that was compacted last. -/
  defragmented : Nat
  entries : List (Entry ρ)
  deriving DecidableEq, Repr

namespace Log

variable {ρ : Type}

/-- The log that begins at the beginning. -/
def empty : Log ρ := ⟨0, 0, []⟩

/-- The log without entries that begins at a given timestamp. -/
def startingAt (initial defragmented : Nat) : Log ρ := ⟨initial, defragmented, []⟩

/-- The timestamp that the next entry gets. -/
def next (log : Log ρ) : Nat := log.initial + log.entries.length

/-- Add entries at the end. -/
def append (log : Log ρ) (entries : List (Entry ρ)) : Log ρ :=
  { log with entries := log.entries ++ entries }

/-- The entries from a timestamp on. -/
def since (log : Log ρ) (timestamp : Nat) : List (Entry ρ) :=
  log.entries.drop (timestamp - log.initial)

/-- How many entries the log still has of the prefix that was compacted last. -/
def compactedCount (log : Log ρ) : Nat := log.defragmented - log.initial

/-- Compact the first so many entries, or all of them if there are fewer. -/
def compact (log : Log ρ) (count : Nat) : Log ρ :=
  let cut := min count log.entries.length
  let entries := compactPrefix log.entries cut
  { initial := log.initial + (log.entries.length - entries.length)
    defragmented := log.initial + cut
    entries }

theorem survivors_length_le (entries : List (Entry ρ)) :
    (survivors entries).length ≤ entries.length := by
  induction entries with
  | nil => simp [survivors]
  | cons entry later ih =>
      simp only [survivors]
      split <;> simp <;> omega

theorem compactPrefix_length_le (entries : List (Entry ρ)) (count : Nat) :
    (compactPrefix entries count).length ≤ entries.length := by
  have front := survivors_length_le (entries.take count)
  simp only [compactPrefix, List.length_append, List.length_take, List.length_drop] at *
  omega

/-- Compaction does not change which timestamp comes next. -/
theorem next_compact (log : Log ρ) (count : Nat) : (log.compact count).next = log.next := by
  have shorter := compactPrefix_length_le log.entries (min count log.entries.length)
  simp only [compact, next]
  omega

end Log

end PrivateRetrieval
