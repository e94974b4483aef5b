/-
# One compaction for a chain of them

A log forgets where it came from: entries are dropped, and those that stay get later timestamps.
What it forgets does not matter. Timestamps number the whole history of changes, and a log is
determined by that history and by the end of the prefix that was compacted last. Whether the prefix
was compacted at once or piece by piece leaves no trace.

So the state of a log is described by `Log.ofHistory`, and the three things that happen to logs,
appending, compacting and forgetting rows, become operations on the history and on the cut.
-/

import Mathlib
import PrivateRetrieval.Store.Log

namespace PrivateRetrieval

variable {ρ : Type}

/-! ## Survivors -/

theorem survivors_sublist (entries : List (Entry ρ)) : (survivors entries).Sublist entries := by
  induction entries with
  | nil => exact List.Sublist.slnil
  | cons entry later ih =>
      rw [survivors]
      split
      · exact ih.cons entry
      · exact ih.cons_cons entry

/-- No deletion survives. -/
theorem isDeletion_of_mem_survivors (entries : List (Entry ρ)) :
    ∀ entry ∈ survivors entries, entry.isDeletion = false := by
  induction entries with
  | nil =>
      intro entry member
      cases member
  | cons first later ih =>
      rw [survivors]
      split
      · exact ih
      · rename_i kept
        rw [Bool.or_eq_true, not_or, Bool.not_eq_true] at kept
        exact List.forall_mem_cons.mpr ⟨kept.1, ih⟩

/-- No two survivors have a key in common. -/
theorem nodup_keys_survivors (entries : List (Entry ρ)) :
    ((survivors entries).map Entry.key).Nodup := by
  induction entries with
  | nil => exact List.nodup_nil
  | cons first later ih =>
      rw [survivors]
      split
      · exact ih
      · rename_i kept
        rw [Bool.or_eq_true, not_or] at kept
        refine List.nodup_cons.mpr ⟨fun member => kept.2 ?_, ih⟩
        obtain ⟨other, survived, same⟩ := List.mem_map.mp member
        exact List.any_eq_true.mpr
          ⟨other, (survivors_sublist later).subset survived, beq_iff_eq.mpr same⟩

/-- What survives a list is what survived its front, less what its back speaks of, and what
survives the back. -/
theorem survivors_append (front back : List (Entry ρ)) :
    survivors (front ++ back) =
      (survivors front).filter (fun entry => !back.any (·.key == entry.key)) ++
        survivors back := by
  induction front with
  | nil => simp [survivors]
  | cons entry later ih =>
      by_cases dropped : (entry.isDeletion || later.any (·.key == entry.key)) = true
      · have droppedToo :
            (entry.isDeletion || (later ++ back).any (·.key == entry.key)) = true := by
          rw [List.any_append, ← Bool.or_assoc, dropped, Bool.true_or]
        rw [List.cons_append, survivors, if_pos droppedToo, survivors, if_pos dropped, ih]
      · rw [List.cons_append, survivors, survivors, if_neg dropped, List.any_append,
          ← Bool.or_assoc, Bool.eq_false_iff.mpr dropped, Bool.false_or]
        by_cases spoken : back.any (·.key == entry.key) = true
        · rw [if_pos spoken, ih, List.filter_cons_of_neg (by simp [spoken])]
        · rw [if_neg spoken, ih, List.filter_cons_of_pos (by simpa using spoken),
            List.cons_append]

/-- Survivors survive: none of them is a deletion, and no two have a key in common. -/
theorem survivors_survivors (entries : List (Entry ρ)) :
    survivors (survivors entries) = survivors entries := by
  induction entries with
  | nil => rfl
  | cons entry later ih =>
      rw [survivors]
      split
      · exact ih
      · rename_i kept
        rw [Bool.or_eq_true, not_or] at kept
        have unspoken : (survivors later).any (·.key == entry.key) ≠ true := by
          intro spoken
          obtain ⟨other, survived, same⟩ := List.any_eq_true.mp spoken
          exact kept.2 (List.any_eq_true.mpr
            ⟨other, (survivors_sublist later).subset survived, same⟩)
        rw [survivors, if_neg (by simp [kept.1, unspoken]), ih]

/-- A compacted front counts as much as the front itself. -/
theorem survivors_survivors_append (front back : List (Entry ρ)) :
    survivors (survivors front ++ back) = survivors (front ++ back) := by
  rw [survivors_append, survivors_survivors, ← survivors_append]

/-! ## The scan for survivors

Whether an entry survives is said above by what comes after it. A scan finds the survivors without
looking ahead: it notes the place of every addition under its key, in place of what was noted there
before, and strikes out the note of a key that is deleted. The survivors are the entries whose
places are noted in the end.
-/

/-- Note the place of an addition under its key, and strike out the note of a key that is
deleted. -/
def noteAddition (noted : Std.TreeMap Key Nat) (entry : Entry ρ × Nat) : Std.TreeMap Key Nat :=
  if entry.1.isDeletion then noted.erase entry.1.key else noted.insert entry.1.key entry.2

/-- Whether the place of an entry is the one that is noted under its key. -/
def isNoted (noted : Std.TreeMap Key Nat) (entry : Entry ρ × Nat) : Bool :=
  noted[entry.1.key]? == some entry.2

/-- The place of the last addition of every key that is not deleted afterwards. -/
def lastAdditions (entries : List (Entry ρ)) : Std.TreeMap Key Nat :=
  entries.zipIdx.foldl noteAddition {}

theorem getElem?_noteAddition (noted : Std.TreeMap Key Nat) (entry : Entry ρ) (place : Nat)
    (key : Key) :
    (noteAddition noted (entry, place))[key]? =
      if entry.key = key then if entry.isDeletion then none else some place else noted[key]? := by
  have compared : compare entry.key key = .eq ↔ entry.key = key := Std.compare_eq_iff_eq
  rw [noteAddition]
  by_cases deletion : entry.isDeletion = true
  · simp [deletion, Std.TreeMap.getElem?_erase, compared]
  · simp [deletion, Std.TreeMap.getElem?_insert, compared]

/-- The note of a key stays as long as no entry speaks of the key. -/
theorem getElem?_foldl_noteAddition_of_unspoken (noted : Std.TreeMap Key Nat)
    {entries : List (Entry ρ)} {key : Key} (unspoken : ¬ entries.any (·.key == key) = true)
    (start : Nat) :
    ((entries.zipIdx start).foldl noteAddition noted)[key]? = noted[key]? := by
  induction entries generalizing noted start with
  | nil => rfl
  | cons entry later ih =>
      rw [List.any_cons, Bool.or_eq_true, not_or, beq_iff_eq] at unspoken
      rw [List.zipIdx_cons, List.foldl_cons, ih _ unspoken.2, getElem?_noteAddition,
        if_neg unspoken.1]

/-- Once an entry has spoken of a key, no earlier place is noted under it. -/
theorem le_of_getElem?_foldl_noteAddition (noted : Std.TreeMap Key Nat)
    {entries : List (Entry ρ)} {key : Key} (spoken : entries.any (·.key == key) = true)
    (start : Nat) {place : Nat}
    (isNoted : ((entries.zipIdx start).foldl noteAddition noted)[key]? = some place) :
    start ≤ place := by
  induction entries generalizing noted start with
  | nil => cases spoken
  | cons entry later ih =>
      rw [List.zipIdx_cons, List.foldl_cons] at isNoted
      by_cases again : later.any (·.key == key) = true
      · exact Nat.le_of_succ_le (ih _ again _ isNoted)
      · -- The first entry is the last one to speak of the key.
        rw [List.any_cons, Bool.or_eq_true, or_iff_left again, beq_iff_eq] at spoken
        rw [getElem?_foldl_noteAddition_of_unspoken _ again, getElem?_noteAddition,
          if_pos spoken] at isNoted
        split at isNoted
        · cases isNoted
        · rw [Option.some.injEq] at isNoted
          exact Nat.le_of_eq isNoted

/-- What was noted before a scan does not matter, nor does the place where it starts. -/
theorem survivors_eq_filter_foldl (noted : Std.TreeMap Key Nat) (entries : List (Entry ρ))
    (start : Nat) :
    survivors entries =
      ((entries.zipIdx start).filter
        (isNoted ((entries.zipIdx start).foldl noteAddition noted))).map Prod.fst := by
  induction entries generalizing noted start with
  | nil => rfl
  | cons entry later ih =>
      rw [survivors, ih (noteAddition noted (entry, start)) (start + 1), List.zipIdx_cons,
        List.foldl_cons, List.filter_cons]
      set after := (later.zipIdx (start + 1)).foldl noteAddition
        (noteAddition noted (entry, start)) with isAfter
      by_cases spoken : later.any (·.key == entry.key) = true
      · have notNoted : isNoted after (entry, start) = false := by
          rw [isNoted, beq_eq_false_iff_ne]
          intro noted
          have := le_of_getElem?_foldl_noteAddition _ spoken _ noted
          omega
        simp [spoken, notNoted]
      · have noted : after[entry.key]? = if entry.isDeletion then none else some start := by
          rw [isAfter, getElem?_foldl_noteAddition_of_unspoken _ spoken, getElem?_noteAddition,
            if_pos rfl]
        rw [Bool.eq_false_iff.mpr spoken, Bool.or_false, isNoted, noted]
        cases entry.isDeletion <;> simp

/-- The survivors are the entries that a scan notes. -/
theorem survivors_eq_filter (entries : List (Entry ρ)) :
    survivors entries =
      (entries.zipIdx.filter (isNoted (lastAdditions entries))).map Prod.fst :=
  survivors_eq_filter_foldl {} entries 0

/-- A prefix is compacted in two passes: one over the prefix for the notes, and one over all entries
for those that are noted or stand behind the prefix. -/
theorem compactPrefix_eq_filter {entries : List (Entry ρ)} {count : Nat}
    (inside : count ≤ entries.length) :
    compactPrefix entries count =
      (entries.zipIdx.filter fun entry =>
        decide (count ≤ entry.2) || isNoted (lastAdditions (entries.take count)) entry).map
          Prod.fst := by
  have length : (entries.take count).length = count := by
    rw [List.length_take, Nat.min_eq_left inside]
  have front : (entries.take count).zipIdx.filter (fun entry =>
      decide (count ≤ entry.2) || isNoted (lastAdditions (entries.take count)) entry) =
        (entries.take count).zipIdx.filter (isNoted (lastAdditions (entries.take count))) := by
    apply List.filter_congr
    rintro ⟨entry, place⟩ member
    have before := (List.mem_zipIdx member).2.1
    rw [decide_eq_false (by omega), Bool.false_or]
  have back : ((entries.drop count).zipIdx (0 + count)).filter (fun entry =>
      decide (count ≤ entry.2) || isNoted (lastAdditions (entries.take count)) entry) =
        (entries.drop count).zipIdx (0 + count) := by
    apply List.filter_eq_self.mpr
    rintro ⟨entry, place⟩ member
    have behind := (List.mem_zipIdx member).1
    rw [decide_eq_true (by omega), Bool.true_or]
  calc compactPrefix entries count
    _ = ((entries.take count).zipIdx.filter
          (isNoted (lastAdditions (entries.take count)))).map Prod.fst ++
        ((entries.drop count).zipIdx (0 + count)).map Prod.fst := by
      rw [compactPrefix, survivors_eq_filter, List.zipIdx_map_fst]
    _ = _ := by
      rw [← front, ← back, ← List.map_append, ← List.filter_append]
      conv_rhs => rw [← List.take_append_drop count entries, List.zipIdx_append, length]
      rw [List.take_append_drop]

/-! ## Logs of a history -/

namespace Log

theorem entries_compact (log : Log ρ) (count : Nat) :
    (log.compact count).entries =
      compactPrefix log.entries (min count log.entries.length) := rfl

theorem defragmented_compact (log : Log ρ) (count : Nat) :
    (log.compact count).defragmented = log.initial + min count log.entries.length := rfl

theorem initial_compact (log : Log ρ) (count : Nat) :
    (log.compact count).initial =
      log.initial + (log.entries.length - (log.compact count).entries.length) := rfl

/-- Compaction only drops entries. -/
theorem sublist_compact (log : Log ρ) (count : Nat) :
    (log.compact count).entries.Sublist log.entries := by
  rw [entries_compact, compactPrefix]
  conv_rhs => rw [← List.take_append_drop (min count log.entries.length) log.entries]
  exact (survivors_sublist _).append_right _

/-- The log that is left of a history when its first entries, up to a cut, are compacted at
once. -/
def ofHistory (history : List (Entry ρ)) (cut : Nat) : Log ρ :=
  compact ⟨0, 0, history⟩ cut

/-- How many entries are left of the prefix before a cut. -/
def leftBefore (history : List (Entry ρ)) (cut : Nat) : Nat :=
  (survivors (history.take cut)).length

theorem leftBefore_le (history : List (Entry ρ)) (cut : Nat) : leftBefore history cut ≤ cut := by
  have shorter := survivors_length_le (history.take cut)
  rw [List.length_take] at shorter
  rw [leftBefore]
  omega

section

variable {history : List (Entry ρ)} {cut : Nat} (inside : cut ≤ history.length)

include inside

theorem entries_ofHistory :
    (ofHistory history cut).entries = survivors (history.take cut) ++ history.drop cut := by
  rw [ofHistory, entries_compact, compactPrefix, Nat.min_eq_left inside]

theorem defragmented_ofHistory : (ofHistory history cut).defragmented = cut := by
  rw [ofHistory, defragmented_compact, Nat.zero_add, Nat.min_eq_left inside]

theorem length_entries_ofHistory :
    (ofHistory history cut).entries.length = leftBefore history cut + (history.length - cut) := by
  rw [entries_ofHistory inside, List.length_append, List.length_drop, leftBefore]

theorem initial_ofHistory :
    (ofHistory history cut).initial = cut - leftBefore history cut := by
  have length := length_entries_ofHistory inside
  have fewer := leftBefore_le history cut
  rw [ofHistory] at length ⊢
  rw [initial_compact, length]
  show 0 + (history.length - (leftBefore history cut + (history.length - cut))) =
    cut - leftBefore history cut
  omega

/-- Timestamps number the history. -/
theorem next_ofHistory : (ofHistory history cut).next = history.length := by
  have length := length_entries_ofHistory inside
  have initial := initial_ofHistory inside
  have fewer := leftBefore_le history cut
  rw [next]
  omega

theorem compactedCount_ofHistory :
    (ofHistory history cut).compactedCount = leftBefore history cut := by
  have initial := initial_ofHistory inside
  have fewer := leftBefore_le history cut
  rw [compactedCount, defragmented_ofHistory inside]
  omega

/-- The three timestamps of a log are in order. -/
theorem initial_le_defragmented_ofHistory :
    (ofHistory history cut).initial ≤ (ofHistory history cut).defragmented := by
  rw [initial_ofHistory inside, defragmented_ofHistory inside]
  omega

/-- A log of a history is told by its fields. -/
theorem eq_ofHistory_iff {log : Log ρ} :
    log = ofHistory history cut ↔
      log.initial = cut - leftBefore history cut ∧ log.defragmented = cut ∧
        log.entries = survivors (history.take cut) ++ history.drop cut := by
  rw [← initial_ofHistory inside, ← entries_ofHistory inside]
  constructor
  · rintro rfl
    exact ⟨rfl, defragmented_ofHistory inside, rfl⟩
  · rintro ⟨initial, defragmented, entries⟩
    cases log
    simp only at initial defragmented entries
    subst initial defragmented entries
    rw [Log.mk.injEq]
    exact ⟨rfl, (defragmented_ofHistory inside).symm, rfl⟩

/-- New entries continue the history. -/
theorem append_ofHistory (more : List (Entry ρ)) :
    (ofHistory history cut).append more = ofHistory (history ++ more) cut := by
  have insideToo : cut ≤ (history ++ more).length := by
    rw [List.length_append]
    omega
  have front : (history ++ more).take cut = history.take cut :=
    List.take_append_of_le_length inside
  rw [eq_ofHistory_iff insideToo, leftBefore, front, List.drop_append_of_le_length inside]
  refine ⟨initial_ofHistory inside, defragmented_ofHistory inside, ?_⟩
  rw [append, entries_ofHistory inside, List.append_assoc]

/-- Compacting a log further, over at least the prefix that was compacted before, is compacting its
history once. -/
theorem compact_ofHistory {count : Nat}
    (further : (ofHistory history cut).compactedCount ≤ count) :
    (ofHistory history cut).compact count =
      ofHistory history (min ((ofHistory history cut).initial + count) history.length) := by
  rw [compactedCount_ofHistory inside] at further
  have fewer := leftBefore_le history cut
  have initial := initial_ofHistory inside
  have length := length_entries_ofHistory inside
  set log := ofHistory history cut with isLog
  set taken := min count log.entries.length with isTaken
  set later := min (log.initial + count) history.length with isLater
  have laterEq : later = cut + (taken - leftBefore history cut) := by omega
  have laterInside : later ≤ history.length := Nat.min_le_right _ _
  have front : survivors (log.entries.take taken) = survivors (history.take later) := by
    have split : log.entries.take taken =
        survivors (history.take cut) ++
          (history.drop cut).take (taken - leftBefore history cut) := by
      rw [entries_ofHistory inside, List.take_append, ← leftBefore,
        List.take_of_length_le (by rw [← leftBefore]; omega)]
    rw [split, survivors_survivors_append, ← List.take_add, ← laterEq]
  have back : log.entries.drop taken = history.drop later := by
    rw [entries_ofHistory inside, List.drop_append, ← leftBefore,
      List.drop_of_length_le (by rw [← leftBefore]; omega), List.nil_append, List.drop_drop,
      ← laterEq]
  have entries : (log.compact count).entries =
      survivors (history.take later) ++ history.drop later := by
    rw [entries_compact, compactPrefix, ← isTaken, front, back]
  have defragmented : (log.compact count).defragmented = later := by
    rw [defragmented_compact, ← isTaken]
    omega
  rw [eq_ofHistory_iff laterInside]
  refine ⟨?_, defragmented, entries⟩
  have next := next_compact log count
  have nextBefore : log.next = history.length := next_ofHistory inside
  rw [Log.next, entries, nextBefore, List.length_append, List.length_drop, ← leftBefore] at next
  omega

/-- Compacting at least what was compacted before moves the end of the prefix forwards, or leaves it
where it is. -/
theorem exists_compact_ofHistory {count : Nat}
    (further : (ofHistory history cut).compactedCount ≤ count) :
    ∃ later, cut ≤ later ∧ later ≤ history.length ∧
      (ofHistory history cut).compact count = ofHistory history later := by
  have initial := initial_le_defragmented_ofHistory inside
  have compacted := compact_ofHistory inside further
  rw [compactedCount] at further
  rw [defragmented_ofHistory inside] at initial further
  refine ⟨_, ?_, Nat.min_le_right _ _, compacted⟩
  omega

/-- A log that is compacted as a whole has only the survivors of its history. -/
theorem entries_compact_whole :
    ((ofHistory history cut).compact (ofHistory history cut).entries.length).entries =
      survivors history := by
  have next := next_ofHistory inside
  have further : (ofHistory history cut).compactedCount ≤
      (ofHistory history cut).entries.length := by
    rw [compactedCount_ofHistory inside, length_entries_ofHistory inside]
    exact Nat.le_add_right _ _
  rw [Log.next] at next
  rw [compact_ofHistory inside further, next, Nat.min_self, entries_ofHistory (Nat.le_refl _),
    List.take_length, List.drop_length, List.append_nil]

/-- What a reader of a log finds from a timestamp behind the compacted prefix on is what the
history has there. -/
theorem since_ofHistory {timestamp : Nat} (behind : cut ≤ timestamp) :
    (ofHistory history cut).since timestamp = history.drop timestamp := by
  have fewer := leftBefore_le history cut
  have initial := initial_ofHistory inside
  have past : leftBefore history cut ≤ timestamp - (ofHistory history cut).initial := by omega
  rw [since, entries_ofHistory inside, List.drop_append, ← leftBefore,
    List.drop_of_length_le (by rw [← leftBefore]; exact past), List.nil_append, List.drop_drop]
  congr 1
  omega

end

end Log

/-! ## Forgetting rows -/

/-- An entry as a client knows it, without the row. -/
def Entry.forget (entry : Entry ρ) : Entry Unit :=
  if entry.isDeletion then .delete entry.key else .put entry.key ()

@[simp]
theorem Entry.key_forget (entry : Entry ρ) : entry.forget.key = entry.key := by
  rw [forget]
  split <;> rfl

@[simp]
theorem Entry.isDeletion_forget (entry : Entry ρ) : entry.forget.isDeletion = entry.isDeletion := by
  rw [forget]
  split
  · rename_i deletion
    rw [deletion]
    rfl
  · rename_i addition
    rw [Bool.eq_false_iff.mpr addition]
    rfl

/-- A log as a client knows it. -/
def Log.forget (log : Log ρ) : Log Unit :=
  ⟨log.initial, log.defragmented, log.entries.map Entry.forget⟩

/-- Which entries survive does not depend on the rows. -/
theorem survivors_map_forget (entries : List (Entry ρ)) :
    survivors (entries.map Entry.forget) = (survivors entries).map Entry.forget := by
  induction entries with
  | nil => rfl
  | cons entry later ih =>
      have spoken : (later.map Entry.forget).any (·.key == entry.key) =
          later.any (·.key == entry.key) := by
        rw [List.any_map]
        simp [Function.comp_def]
      rw [List.map_cons, survivors, survivors, Entry.key_forget, Entry.isDeletion_forget, spoken]
      split
      · exact ih
      · rw [List.map_cons, ih]

/-- Forgetting the rows of a log is forgetting those of its history. -/
theorem Log.forget_ofHistory {history : List (Entry ρ)} {cut : Nat}
    (inside : cut ≤ history.length) :
    (ofHistory history cut).forget = ofHistory (history.map Entry.forget) cut := by
  have insideToo : cut ≤ (history.map Entry.forget).length := by rwa [List.length_map]
  have left : leftBefore (history.map Entry.forget) cut = leftBefore history cut := by
    rw [leftBefore, ← List.map_take, survivors_map_forget, List.length_map, leftBefore]
  rw [eq_ofHistory_iff insideToo, left, ← List.map_take, survivors_map_forget, ← List.map_drop,
    ← List.map_append, ← entries_ofHistory inside]
  exact ⟨initial_ofHistory inside, defragmented_ofHistory inside, rfl⟩

end PrivateRetrieval
