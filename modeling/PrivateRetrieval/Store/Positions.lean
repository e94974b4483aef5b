/-
# Positions of rows

Every entry of a log that puts a row gives the row the next free position, so a log determines
where the row of a key is. A key that is put again moves to the new position and leaves a dead
row at the old one. Deleting a key forgets its position and leaves the row.

Servers and clients compute positions alike, from logs with and without rows.
-/

import Std.Data.TreeMap.Basic
import PrivateRetrieval.Store.Log

namespace PrivateRetrieval

/-- Where the rows of the live keys are. -/
structure Positions where
  /-- The position of the row of a live key. -/
  ofKey : Std.TreeMap Key Nat
  /-- How many rows there are, live or dead. -/
  rowCount : Nat

namespace Positions

/-- No rows. -/
def empty : Positions := ⟨{}, 0⟩

/-- The position of a key's row, if the key is live. -/
def find? (positions : Positions) (key : Key) : Option Nat := positions.ofKey[key]?

/-- How many keys are live. -/
def liveCount (positions : Positions) : Nat := positions.ofKey.size

/-- The live keys in ascending order. -/
def keys (positions : Positions) : List Key := positions.ofKey.keys

/-- Apply one change. -/
def apply {ρ : Type} (positions : Positions) (entry : Entry ρ) : Positions :=
  match entry.change with
  | .put _ => ⟨positions.ofKey.insert entry.key positions.rowCount, positions.rowCount + 1⟩
  | .delete => { positions with ofKey := positions.ofKey.erase entry.key }

/-- Apply changes in order. -/
def replay {ρ : Type} (positions : Positions) (entries : List (Entry ρ)) : Positions :=
  entries.foldl apply positions

theorem replay_append {ρ : Type} (positions : Positions) (first second : List (Entry ρ)) :
    positions.replay (first ++ second) = (positions.replay first).replay second := by
  simp [replay]

end Positions

end PrivateRetrieval
