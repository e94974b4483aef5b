/-
# Replaying compacted entries

Compaction drops entries, so rows move up, but it does not change what the entries mean. Whoever
replays the entries that are left finds the same keys live, the same entry at the position of each
of them, and the live keys in the same order. Nothing is left that means nothing: of the compacted
prefix one addition stays for every key that was live at its end.

The survivors of a list carry all this. They are the entries at the positions of the live keys, and
they stand in the order of these positions. Compacting a prefix changes the list and not its
survivors.
-/

import PrivateRetrieval.Proofs.Log.Contents

namespace PrivateRetrieval

section List

/-- Of two members of an ordered list, one stands before the other one. -/
theorem forall_or_flip_of_pairwise {α : Type} {relation : α → α → Prop} {list : List α}
    (ordered : list.Pairwise relation) {first second : α} (isFirst : first ∈ list)
    (isSecond : second ∈ list) (apart : first ≠ second) :
    relation first second ∨ relation second first := by
  have : Std.Symm fun first second => relation first second ∨ relation second first :=
    ⟨fun _ _ => Or.symm⟩
  have either : list.Pairwise fun first second => relation first second ∨ relation second first :=
    ordered.imp Or.inl
  exact either.forall isFirst isSecond apart

end List

variable {ρ : Type}

/-- The entries that put rows. The one at a position put the row at that position. -/
def additions (entries : List (Entry ρ)) : List (Entry ρ) := entries.filter (!·.isDeletion)

namespace Positions

/-- Entries that do not speak of a key leave it where it is. -/
theorem find?_replay_of_unspoken (positions : Positions) {entries : List (Entry ρ)} {key : Key}
    (unspoken : ¬ entries.any (·.key == key) = true) :
    (positions.replay entries).find? key = positions.find? key := by
  induction entries generalizing positions with
  | nil => rfl
  | cons entry later ih =>
      rw [List.any_cons, Bool.or_eq_true, not_or, beq_iff_eq] at unspoken
      show ((positions.apply entry).replay later).find? key = positions.find? key
      rw [ih (positions.apply entry) unspoken.2, find?_apply, if_neg unspoken.1]

/-- An entry that puts a row puts it at the next free position. -/
theorem find?_apply_of_addition (positions : Positions) {entry : Entry ρ}
    (addition : entry.isDeletion = false) :
    (positions.apply entry).find? entry.key = some positions.rowCount := by
  rcases entry with ⟨key, row | _⟩
  · rw [find?_apply, if_pos rfl]
    rfl
  · cases addition

theorem rowCount_apply_eq (positions : Positions) (entry : Entry ρ) :
    (positions.apply entry).rowCount = positions.rowCount + (additions [entry]).length := by
  rcases entry with ⟨key, row | _⟩ <;> rfl

/-- A survivor stands at the position of its key, among the entries that put rows. -/
theorem exists_place_of_mem_survivors (positions : Positions) {entries : List (Entry ρ)}
    {entry : Entry ρ} (survived : entry ∈ survivors entries) :
    ∃ place, (additions entries)[place]? = some entry ∧
      (positions.replay entries).find? entry.key = some (positions.rowCount + place) := by
  induction entries generalizing positions with
  | nil => cases survived
  | cons first later ih =>
      -- A survivor of what comes later is further back by the row that the first entry puts.
      have fromLater : entry ∈ survivors later →
          ∃ place, (additions (first :: later))[place]? = some entry ∧
            (positions.replay (first :: later)).find? entry.key =
              some (positions.rowCount + place) := by
        intro inLater
        obtain ⟨place, isThere, found⟩ := ih (positions.apply first) inLater
        refine ⟨(additions [first]).length + place, ?_, ?_⟩
        · have split : additions (first :: later) = additions [first] ++ additions later :=
            List.filter_append [first] later
          rw [← isThere, split, List.getElem?_append_right (Nat.le_add_right _ _),
            Nat.add_sub_cancel_left]
        · rw [rowCount_apply_eq, Nat.add_assoc] at found
          exact found
      rw [survivors] at survived
      split at survived
      · exact fromLater survived
      · rename_i kept
        rw [Bool.or_eq_true, not_or, Bool.not_eq_true] at kept
        rcases List.mem_cons.mp survived with rfl | inLater
        · refine ⟨0, ?_, ?_⟩
          · rw [additions, List.filter_cons_of_pos (by simp [kept.1])]
            rfl
          · show ((positions.apply entry).replay later).find? entry.key = _
            rw [find?_replay_of_unspoken _ kept.2, find?_apply_of_addition positions kept.1]
            rfl
        · exact fromLater inLater

/-- Survivors stand in the order of their positions. -/
theorem pairwise_survivors (positions : Positions) (entries : List (Entry ρ)) :
    (survivors entries).Pairwise fun first second => ∀ front back,
      (positions.replay entries).find? first.key = some front →
      (positions.replay entries).find? second.key = some back → front < back := by
  induction entries generalizing positions with
  | nil => exact List.Pairwise.nil
  | cons first later ih =>
      rw [survivors]
      split
      · exact ih (positions.apply first)
      · rename_i kept
        rw [Bool.or_eq_true, not_or, Bool.not_eq_true] at kept
        refine List.pairwise_cons.mpr ⟨?_, ih (positions.apply first)⟩
        intro second inLater front back isFront isBack
        change ((positions.apply first).replay later).find? _ = _ at isFront isBack
        obtain ⟨place, -, found⟩ := exists_place_of_mem_survivors (positions.apply first) inLater
        rw [find?_replay_of_unspoken _ kept.2, find?_apply_of_addition positions kept.1,
          Option.some.injEq] at isFront
        rw [found, Option.some.injEq, rowCount_apply_eq, additions,
          List.filter_cons_of_pos (by simp [kept.1])] at isBack
        simp only [List.filter_nil, List.length_singleton] at isBack
        omega

/-- There is one survivor for every live key. -/
theorem mem_keys_survivors_iff (entries : List (Entry ρ)) (key : Key) :
    key ∈ (survivors entries).map Entry.key ↔ ((empty.replay entries).find? key).isSome := by
  rw [Contents.mem_keys_survivors, (locates_replay entries).isSome_find?]

/-- Lists of entries with the same survivors mean the same: the same keys are live, the same entry
stands at the position of each, and the positions are in the same order. -/
structure SameMeaning (first second : List (Entry ρ)) : Prop where
  live : ∀ key, ((empty.replay second).find? key).isSome = ((empty.replay first).find? key).isSome
  entry : ∀ key place, (empty.replay first).find? key = some place →
    ∃ entry place', entry.key = key ∧ (empty.replay second).find? key = some place' ∧
      (additions first)[place]? = some entry ∧ (additions second)[place']? = some entry
  order : ∀ key other place otherPlace place' otherPlace',
    (empty.replay first).find? key = some place →
    (empty.replay first).find? other = some otherPlace →
    (empty.replay second).find? key = some place' →
    (empty.replay second).find? other = some otherPlace' →
    (place < otherPlace ↔ place' < otherPlace')

theorem sameMeaning_of_survivors_eq {first second : List (Entry ρ)}
    (same : survivors second = survivors first) : SameMeaning first second where
  live key := by
    rw [Bool.eq_iff_iff, ← mem_keys_survivors_iff, ← mem_keys_survivors_iff, same]
  entry := by
    intro key place found
    have live : key ∈ (survivors first).map Entry.key := by
      rw [mem_keys_survivors_iff, found, Option.isSome_some]
    obtain ⟨entry, survived, rfl⟩ := List.mem_map.mp live
    obtain ⟨front, isFront, foundFront⟩ := exists_place_of_mem_survivors empty survived
    obtain ⟨back, isBack, foundBack⟩ := exists_place_of_mem_survivors empty (same ▸ survived)
    rw [found, Option.some.injEq] at foundFront
    rw [show empty.rowCount = 0 from rfl, Nat.zero_add] at foundFront foundBack
    exact ⟨entry, back, rfl, foundBack, foundFront ▸ isFront, isBack⟩
  order := by
    intro key other place otherPlace place' otherPlace' isFirst isOther isFirst' isOther'
    have live : key ∈ (survivors first).map Entry.key := by
      rw [mem_keys_survivors_iff, isFirst, Option.isSome_some]
    have liveOther : other ∈ (survivors first).map Entry.key := by
      rw [mem_keys_survivors_iff, isOther, Option.isSome_some]
    obtain ⟨entry, survived, rfl⟩ := List.mem_map.mp live
    obtain ⟨otherEntry, otherSurvived, rfl⟩ := List.mem_map.mp liveOther
    -- Of two survivors, one stands before the other one in both lists.
    have ordered := (pairwise_survivors empty first).and
      (same ▸ pairwise_survivors empty second)
    by_cases equal : entry = otherEntry
    · subst equal
      rw [isFirst, Option.some.injEq] at isOther
      rw [isFirst', Option.some.injEq] at isOther'
      omega
    · rcases forall_or_flip_of_pairwise ordered survived otherSurvived equal with
        ⟨before, before'⟩ | ⟨after, after'⟩
      · exact iff_of_true (before _ _ isFirst isOther) (before' _ _ isFirst' isOther')
      · exact iff_of_false (after _ _ isOther isFirst).asymm (after' _ _ isOther' isFirst').asymm

/-- Entries of which a prefix was compacted mean the same as before. They are some of the entries,
in order, and end with those behind the prefix. What is left of the prefix puts rows under distinct
keys, one for every key that was live at its end. -/
theorem compactPrefix?_sameMeaning {entries : List (Entry ρ)} {count : Nat}
    (inside : count ≤ entries.length) :
    ∃ front, compactPrefix? entries count = .ok (front ++ entries.drop count) ∧
      SameMeaning entries (front ++ entries.drop count) ∧
      (front ++ entries.drop count).Sublist entries ∧
      front.Sublist (entries.take count) ∧
      (∀ entry ∈ front, entry.isDeletion = false) ∧ (front.map Entry.key).Nodup ∧
      ∀ key, key ∈ front.map Entry.key ↔
        ((empty.replay (entries.take count)).find? key).isSome := by
  have kept : (survivors (entries.take count)).Sublist (entries.take count) :=
    survivors_sublist _
  refine ⟨survivors (entries.take count), if_pos inside, ?_, ?_, kept,
    isDeletion_of_mem_survivors _, nodup_keys_survivors _, mem_keys_survivors_iff _⟩
  · apply sameMeaning_of_survivors_eq
    rw [survivors_survivors_append, List.take_append_drop]
  · have whole := kept.append (List.Sublist.refl (entries.drop count))
    rwa [List.take_append_drop] at whole

/-- Keys that are put again, deleted and put back, before and after the end of the prefix. -/
theorem sameMeaning_of_returning_keys :
    let entries : List (Entry Nat) := [.put 1 10, .put 2 20, .delete 1, .put 1 11, .put 2 21,
      .put 3 30, .delete 2, .put 2 22, .put 1 12]
    let compacted : List (Entry Nat) := [.put 1 11, .put 2 21, .put 3 30, .delete 2, .put 2 22,
      .put 1 12]
    6 ≤ entries.length ∧ compactPrefix? entries 6 = .ok compacted ∧
      SameMeaning entries compacted := by
  intro entries compacted
  have inside : 6 ≤ entries.length := by decide
  have isCompacted : compactPrefix? entries 6 = .ok compacted := by decide
  obtain ⟨front, isFront, same, -⟩ := compactPrefix?_sameMeaning inside
  rw [isCompacted, Except.ok.injEq] at isFront
  exact ⟨inside, isCompacted, isFront ▸ same⟩

end Positions

end PrivateRetrieval
