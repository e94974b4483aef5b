/-
# Chains of compactions

A log is kept up by appending entries and by compacting prefixes. A chain of such chores in which no
compaction ends before the last one did leaves the same log as appending everything first and
compacting once, up to where the last compaction of the chain ended. So nobody who knows the
entries and the timestamp at which the compacted prefix ends has to know the chain: a client that
was away compacts once and has caught up.

The log at the beginning of the chain need not come from the beginning of time. It is enough that
what it has of its compacted prefix is compacted. Such a log is that of a history in which
something was deleted until the log begins.
-/

import PrivateRetrieval.Proofs.Log.Compaction

namespace PrivateRetrieval

variable {ρ : Type}

/-- Entries that put rows under distinct keys all survive. -/
theorem survivors_eq_self {entries : List (Entry ρ)}
    (puts : ∀ entry ∈ entries, entry.isDeletion = false)
    (distinct : (entries.map Entry.key).Nodup) : survivors entries = entries := by
  induction entries with
  | nil => rfl
  | cons first later ih =>
      rw [List.forall_mem_cons] at puts
      rw [List.map_cons, List.nodup_cons] at distinct
      have unspoken : ¬ later.any (·.key == first.key) = true := by
        intro spoken
        obtain ⟨other, member, same⟩ := List.any_eq_true.mp spoken
        exact distinct.1 (List.mem_map.mpr ⟨other, member, beq_iff_eq.mp same⟩)
      rw [survivors, if_neg (by simp [puts.1, unspoken]), ih puts.2 distinct.2]

/-- Nothing survives where everything is a deletion. -/
theorem survivors_eq_nil {entries : List (Entry ρ)}
    (deletions : ∀ entry ∈ entries, entry.isDeletion = true) : survivors entries = [] := by
  rw [List.eq_nil_iff_forall_not_mem]
  intro entry survived
  have deletion := deletions entry ((survivors_sublist entries).subset survived)
  rw [isDeletion_of_mem_survivors entries entry survived] at deletion
  cases deletion

namespace Log

/-! ## Single compactions -/

/-- The entry with a timestamp. -/
def entryAt? (log : Log ρ) (timestamp : Nat) : Option (Entry ρ) :=
  if timestamp < log.initial then none else log.entries[timestamp - log.initial]?

/-- The entry with a timestamp is the first one that a reader finds from there on. -/
theorem entryAt?_eq_head? (log : Log ρ) {timestamp : Nat} (begun : log.initial ≤ timestamp) :
    log.entryAt? timestamp = (log.since timestamp).head? := by
  rw [entryAt?, if_neg (Nat.not_lt.mpr begun), since, List.head?_drop]

/-- The three timestamps of a compacted log are in order. -/
theorem initial_compact_le (log : Log ρ) (count : Nat) :
    (log.compact count).initial ≤ (log.compact count).defragmented := by
  rw [initial_compact, defragmented_compact, entries_compact, compactPrefix, List.length_append,
    List.length_drop]
  omega

theorem compactedCount_compact (log : Log ρ) (count : Nat) :
    (log.compact count).compactedCount =
      (survivors (log.entries.take (min count log.entries.length))).length := by
  have shorter := survivors_length_le (log.entries.take (min count log.entries.length))
  rw [List.length_take] at shorter
  rw [compactedCount, initial_compact, defragmented_compact, entries_compact, compactPrefix,
    List.length_append, List.length_drop]
  omega

/-- What a reader finds behind the compacted prefix is what was there before. -/
theorem since_compact (log : Log ρ) {count timestamp : Nat}
    (behind : (log.compact count).defragmented ≤ timestamp) :
    (log.compact count).since timestamp = log.since timestamp := by
  have compacted := compactedCount_compact log count
  have ordered := initial_compact_le log count
  rw [compactedCount, defragmented_compact] at compacted
  rw [defragmented_compact] at behind ordered
  set cut := min count log.entries.length with isCut
  set front := survivors (log.entries.take cut) with isFront
  rw [since, since, entries_compact, compactPrefix, ← isCut, ← isFront, List.drop_append,
    List.drop_of_length_le (by omega), List.nil_append, List.drop_drop]
  congr 1
  omega

/-- An entry behind the compacted prefix keeps its timestamp. -/
theorem entryAt?_compact (log : Log ρ) {count timestamp : Nat}
    (behind : (log.compact count).defragmented ≤ timestamp) :
    (log.compact count).entryAt? timestamp = log.entryAt? timestamp := by
  have begun : log.initial ≤ timestamp := by
    rw [defragmented_compact] at behind
    omega
  rw [entryAt?_eq_head? _ ((initial_compact_le log count).trans behind),
    entryAt?_eq_head? log begun, since_compact log behind]

/-- A compaction that ends where the last one ended changes nothing. -/
theorem compact_compact (log : Log ρ) {count again : Nat}
    (same : ((log.compact count).compact again).defragmented = (log.compact count).defragmented) :
    (log.compact count).compact again = log.compact count := by
  have compacted := compactedCount_compact log count
  have ordered := initial_compact_le log count
  have front : min again (log.compact count).entries.length =
      (log.compact count).compactedCount := by
    rw [defragmented_compact] at same
    rw [compactedCount]
    omega
  have entries : ((log.compact count).compact again).entries = (log.compact count).entries := by
    rw [entries_compact _ again, front, compacted, compactPrefix, entries_compact log,
      compactPrefix, List.take_left, List.drop_left, survivors_survivors]
  have initial := initial_compact (log.compact count) again
  rw [entries, Nat.sub_self, Nat.add_zero] at initial
  calc (log.compact count).compact again
      = ⟨((log.compact count).compact again).initial,
          ((log.compact count).compact again).defragmented,
          ((log.compact count).compact again).entries⟩ := rfl
    _ = log.compact count := by rw [initial, same, entries]

/-! ## Chains -/

/-- The prefix that a log says is compacted is compacted: it has no deletion, and no key twice. -/
structure FrontCompacted (log : Log ρ) : Prop where
  initial_le : log.initial ≤ log.defragmented
  le_next : log.defragmented ≤ log.next
  puts : ∀ entry ∈ log.entries.take log.compactedCount, entry.isDeletion = false
  distinct : ((log.entries.take log.compactedCount).map Entry.key).Nodup

/-- What keeps a log up. -/
inductive Chore (ρ : Type) where
  /-- Add entries at the end. -/
  | append (entries : List (Entry ρ))
  /-- Compact the first so many entries. -/
  | compact (count : Nat)
  deriving DecidableEq, Repr

/-- The entries that a chore adds. -/
def Chore.entries : Chore ρ → List (Entry ρ)
  | .append entries => entries
  | .compact _ => []

/-- Whether a chore does not compact less of a log than was compacted before. -/
def Chore.Advances (log : Log ρ) : Chore ρ → Prop
  | .append _ => True
  | .compact count => log.compactedCount ≤ count

instance (log : Log ρ) (chore : Chore ρ) : Decidable (chore.Advances log) :=
  match chore with
  | .append _ => inferInstanceAs (Decidable True)
  | .compact count => inferInstanceAs (Decidable (log.compactedCount ≤ count))

/-- Carry out a chore. -/
def carryOut (log : Log ρ) : Chore ρ → Log ρ
  | .append entries => log.append entries
  | .compact count => log.compact count

/-- Carry out chores in order. -/
def carryOutAll (log : Log ρ) (chores : List (Chore ρ)) : Log ρ := chores.foldl carryOut log

/-- Whether no compaction among chores ends before the one before it did. -/
def AllAdvance : Log ρ → List (Chore ρ) → Prop
  | _, [] => True
  | log, chore :: rest => chore.Advances log ∧ (log.carryOut chore).AllAdvance rest

instance decidableAllAdvance : (log : Log ρ) → (chores : List (Chore ρ)) →
    Decidable (log.AllAdvance chores)
  | _, [] => inferInstanceAs (Decidable True)
  | log, chore :: rest =>
      have := decidableAllAdvance (log.carryOut chore) rest
      inferInstanceAs (Decidable (chore.Advances log ∧ (log.carryOut chore).AllAdvance rest))

theorem frontCompacted_empty : (empty : Log ρ).FrontCompacted :=
  ⟨Nat.le_refl _, Nat.le_refl _, by simp [empty], by simp [empty]⟩

theorem frontCompacted_ofHistory {history : List (Entry ρ)} {cut : Nat}
    (inside : cut ≤ history.length) : (ofHistory history cut).FrontCompacted := by
  have front : (ofHistory history cut).entries.take (ofHistory history cut).compactedCount =
      survivors (history.take cut) := by
    rw [entries_ofHistory inside, compactedCount_ofHistory inside, leftBefore, List.take_left]
  refine ⟨initial_le_defragmented_ofHistory inside, ?_, ?_, ?_⟩
  · rwa [defragmented_ofHistory inside, next_ofHistory inside]
  · rw [front]
    exact isDeletion_of_mem_survivors _
  · rw [front]
    exact nodup_keys_survivors _

/-- A log whose front is compacted is that of a history. -/
theorem FrontCompacted.exists_eq_ofHistory {log : Log ρ} (front : log.FrontCompacted) :
    ∃ history, log.defragmented ≤ history.length ∧ log = ofHistory history log.defragmented := by
  have ordered := front.initial_le
  have within := front.le_next
  rw [next] at within
  -- What is deleted until the log begins leaves nothing and takes up the timestamps.
  set lost : List (Entry ρ) := List.replicate log.initial (.delete 0) with isLost
  have length : lost.length = log.initial := List.length_replicate
  have nothing : survivors lost = [] :=
    survivors_eq_nil fun entry member => (List.eq_of_mem_replicate member) ▸ rfl
  have inside : log.defragmented ≤ (lost ++ log.entries).length := by
    rw [List.length_append, length]
    exact within
  have kept : survivors (log.entries.take log.compactedCount) =
      log.entries.take log.compactedCount := survivors_eq_self front.puts front.distinct
  have before : survivors ((lost ++ log.entries).take log.defragmented) =
      log.entries.take log.compactedCount := by
    rw [List.take_append, length, List.take_of_length_le (length.trans_le ordered),
      survivors_append, nothing, List.filter_nil, List.nil_append]
    exact kept
  refine ⟨lost ++ log.entries, inside, (eq_ofHistory_iff inside).mpr ⟨?_, rfl, ?_⟩⟩
  · rw [leftBefore, before, List.length_take, compactedCount]
    omega
  · rw [before, List.drop_append, length, List.drop_of_length_le (length.trans_le ordered),
      List.nil_append]
    exact (List.take_append_drop _ _).symm

/-- A chore that advances goes on with the history and with the cut. -/
theorem exists_carryOut_ofHistory {history : List (Entry ρ)} {cut : Nat}
    (inside : cut ≤ history.length) {chore : Chore ρ}
    (advances : chore.Advances (ofHistory history cut)) :
    ∃ later, cut ≤ later ∧ later ≤ (history ++ chore.entries).length ∧
      (ofHistory history cut).carryOut chore = ofHistory (history ++ chore.entries) later := by
  cases chore with
  | append entries =>
      refine ⟨cut, Nat.le_refl cut, ?_, append_ofHistory inside entries⟩
      rw [List.length_append]
      exact Nat.le_add_right_of_le inside
  | compact count =>
      rw [Chore.entries, List.append_nil]
      exact exists_compact_ofHistory inside advances

/-- So does a chain of them. -/
theorem exists_carryOutAll_ofHistory {chores : List (Chore ρ)} {history : List (Entry ρ)}
    {cut : Nat} (inside : cut ≤ history.length)
    (advance : (ofHistory history cut).AllAdvance chores) :
    ∃ later, cut ≤ later ∧ later ≤ (history ++ chores.flatMap Chore.entries).length ∧
      (ofHistory history cut).carryOutAll chores =
        ofHistory (history ++ chores.flatMap Chore.entries) later := by
  induction chores generalizing history cut with
  | nil =>
      rw [List.flatMap_nil, List.append_nil]
      exact ⟨cut, Nat.le_refl cut, inside, rfl⟩
  | cons chore rest ih =>
      obtain ⟨advances, advanceRest⟩ := advance
      obtain ⟨next, further, insideNext, carried⟩ := exists_carryOut_ofHistory inside advances
      rw [carried] at advanceRest
      obtain ⟨later, furtherRest, insideRest, carriedRest⟩ := ih insideNext advanceRest
      rw [List.flatMap_cons, ← List.append_assoc]
      refine ⟨later, further.trans furtherRest, insideRest, ?_⟩
      rw [carryOutAll, List.foldl_cons, carried]
      exact carriedRest

/-- A chain of appends and compactions in which no compaction ends before the one before it did
leaves the log that all the appends and one compaction leave, up to where the last compaction ended.
The prefix of that log is compacted again, as that of the empty log is, so chains may follow each
other. Neither a chain nor a compaction changes which timestamp comes next, what is behind the
compacted prefix keeps its timestamps, and so a reader from there on finds the same entries. A
compaction that ends where the last one ended changes nothing, and there is one. -/
theorem carryOutAll_eq_compact {log : Log ρ} {chores : List (Chore ρ)} (front : log.FrontCompacted)
    (advance : log.AllAdvance chores) :
    let whole := log.append (chores.flatMap Chore.entries)
    let last := log.carryOutAll chores
    last = whole.compact (last.defragmented - log.initial) ∧
      log.defragmented ≤ last.defragmented ∧ last.defragmented ≤ last.next ∧
      last.FrontCompacted ∧ (empty : Log ρ).FrontCompacted ∧
      last.next = whole.next ∧
      (∀ timestamp, last.defragmented ≤ timestamp →
        last.entryAt? timestamp = whole.entryAt? timestamp ∧
          last.since timestamp = whole.since timestamp) ∧
      ∀ count, (last.compact count).next = last.next ∧
        (∀ timestamp, (last.compact count).defragmented ≤ timestamp →
          (last.compact count).entryAt? timestamp = last.entryAt? timestamp ∧
            (last.compact count).since timestamp = last.since timestamp) ∧
        (last.compact count).compact (last.compact count).compactedCount = last.compact count ∧
        ∀ again, ((last.compact count).compact again).defragmented =
          (last.compact count).defragmented → (last.compact count).compact again =
            last.compact count := by
  intro whole last
  obtain ⟨history, inside, isLog⟩ := front.exists_eq_ofHistory
  rw [isLog] at advance
  obtain ⟨later, further, insideLater, carried⟩ := exists_carryOutAll_ofHistory inside advance
  rw [← isLog] at carried
  have isLast : last = ofHistory (history ++ chores.flatMap Chore.entries) later := carried
  have isWhole : whole = ofHistory (history ++ chores.flatMap Chore.entries) log.defragmented := by
    rw [← append_ofHistory inside, ← isLog]
  have defragmented : last.defragmented = later := by
    rw [isLast, defragmented_ofHistory insideLater]
  have single : last = whole.compact (last.defragmented - log.initial) := by
    have insideWhole : log.defragmented ≤ (history ++ chores.flatMap Chore.entries).length :=
      further.trans insideLater
    have initial : (ofHistory (history ++ chores.flatMap Chore.entries) log.defragmented).initial =
        log.initial := isWhole ▸ rfl
    have enough : (ofHistory (history ++ chores.flatMap Chore.entries)
        log.defragmented).compactedCount ≤ later - log.initial := by
      rw [compactedCount, defragmented_ofHistory insideWhole, initial]
      omega
    have begun := front.initial_le
    rw [defragmented, isWhole, compact_ofHistory insideWhole enough, initial, isLast]
    congr 1
    omega
  have next : last.next = whole.next := by
    rw [isLast, isWhole, next_ofHistory insideLater, next_ofHistory (further.trans insideLater)]
  refine ⟨single, defragmented ▸ further, ?_, ?_, frontCompacted_empty, next, ?_, ?_⟩
  · rwa [defragmented, isLast, next_ofHistory insideLater]
  · rw [isLast]
    exact frontCompacted_ofHistory insideLater
  · intro timestamp behind
    rw [single] at behind ⊢
    exact ⟨entryAt?_compact whole behind, since_compact whole behind⟩
  · intro count
    refine ⟨next_compact last count, ?_, ?_, fun again same => compact_compact last same⟩
    · exact fun timestamp behind => ⟨entryAt?_compact last behind, since_compact last behind⟩
    · apply compact_compact
      rw [defragmented_compact, Nat.min_eq_left, compactedCount]
      · have ordered := initial_compact_le last count
        omega
      · rw [compactedCount_compact, entries_compact, compactPrefix, List.length_append]
        exact Nat.le_add_right _ _

/-- A log that begins late. A key of its compacted prefix is put again and another one is deleted,
and the deleted one comes back after a compaction. -/
theorem carryOutAll_of_returning_key :
    let log : Log Nat := ⟨5, 7, [.put 1 10, .put 2 20, .put 2 21, .delete 1]⟩
    let chores : List (Chore Nat) := [.compact 3, .append [.put 1 11, .put 3 30], .compact 4]
    log.FrontCompacted ∧ log.AllAdvance chores ∧
      log.carryOutAll chores = ⟨8, 10, [.put 2 21, .put 1 11, .put 3 30]⟩ ∧
      log.carryOutAll chores = (log.append [.put 1 11, .put 3 30]).compact 5 := by
  intro log chores
  have front : log.FrontCompacted := ⟨by decide, by decide, by decide, by decide⟩
  have advance : log.AllAdvance chores := by decide
  exact ⟨front, advance, by decide, (carryOutAll_eq_compact front advance).1⟩

end Log

end PrivateRetrieval
