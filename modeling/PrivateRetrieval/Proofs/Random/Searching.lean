/-
# Searches on a tape

A draw that rejects words ends on every tape that is fair, and a tape is fair if a search need
not be more patient than the bound on searches. No tape that anybody draws from is known to be
unfair, but one that repeats a single word is, so the two outcomes of a search are stated side
by side: it finds what it looks for, or the tape is not fair.
-/

import Mathlib
import PrivateRetrieval.Random.Tape

namespace PrivateRetrieval

namespace Tape

/-- Among the words that a search may read, from any position on, there is one that stands for a
number below the bound other than a given one. The bounds are those of tables and sets. -/
def Fair (tape : Tape) : Prop :=
  ∀ bound avoided position, 2 ≤ bound → bound ≤ 2 ^ 32 →
    ∃ step < patience, ∃ number, scaled bound (tape.word (position + step)) = some number ∧
      number ≠ avoided

theorem fair_congr {first second : Tape} (same : second.word = first.word) :
    second.Fair ↔ first.Fair := by
  rw [Fair, Fair, same]

/-- A search reads the same tape on, and gives up only if it rejects as many words as it may. -/
theorem search_spec {α : Type} (accept : UInt64 → Option α) (allowed : Nat) (tape : Tape) :
    (search accept allowed tape).2.word = tape.word ∧
      (∀ value, (search accept allowed tape).1 = some value →
        ∃ word, accept word = some value) ∧
      ((search accept allowed tape).1 = none →
        ∀ step < allowed, accept (tape.word (tape.position + step)) = none) := by
  induction allowed generalizing tape with
  | zero => exact ⟨rfl, fun value found => (nomatch found), fun _ step few => (nomatch few)⟩
  | succ allowed ih =>
      rw [search]
      cases accepted : accept tape.next.1 with
      | some value =>
          simp only [accepted]
          exact ⟨rfl, fun other found => ⟨_, accepted.trans found⟩, fun absent => (nomatch absent)⟩
      | none =>
          simp only [accepted]
          obtain ⟨word, found, missed⟩ := ih tape.next.2
          refine ⟨word, found, ?_⟩
          intro absent step few
          cases step with
          | zero => exact accepted
          | succ step =>
              rw [← Nat.succ_add_eq_add_succ]
              exact missed absent step (Nat.lt_of_succ_lt_succ few)

theorem lt_of_scaled {bound number : Nat} {word : UInt64}
    (isNumber : scaled bound word = some number) :
    number < bound := by
  rw [scaled] at isNumber
  split at isNumber
  · obtain rfl := Option.some.inj isNumber
    apply Nat.div_lt_of_lt_mul
    apply Nat.mul_lt_mul_of_pos_right word.toNat_lt
    by_contra none
    rename_i below
    rw [Nat.eq_zero_of_not_pos none, Nat.zero_shiftLeft] at below
    exact Nat.not_lt_zero _ below
  · cases isNumber

/-- The tape of all multiples of a power of two in a circle. -/
def circle : Tape := ⟨fun position => UInt64.ofNat (position % 2 ^ 32 * 2 ^ 32), 0⟩

theorem scaled_circle {bound number step rest : Nat} (many : 2 ≤ bound) (few : bound ≤ 2 ^ 32)
    (inCircle : step < 2 ^ 32) (product : step * bound = number * 2 ^ 32 + rest)
    (small : rest < bound) (exact : bound = 2 ^ 32 → rest = 0) :
    scaled bound (UInt64.ofNat (step * 2 ^ 32)) = some number := by
  have word : (UInt64.ofNat (step * 2 ^ 32)).toNat = step * 2 ^ 32 :=
    UInt64.toNat_ofNat_of_lt' (by norm_num at inCircle ⊢; omega)
  have whole : step * 2 ^ 32 * bound = number * 2 ^ 64 + rest * 2 ^ 32 := by
    rw [Nat.mul_right_comm, product]
    ring
  have below : rest * 2 ^ 32 < 2 ^ 64 := by
    norm_num at few ⊢
    omega
  have inZone : rest * 2 ^ 32 < bound * 2 ^ (63 - Nat.log2 bound) := by
    rcases Nat.lt_or_ge bound (2 ^ 32) with fewer | full
    · have height : Nat.log2 bound < 32 := (Nat.log2_lt (by omega)).mpr fewer
      have wide : 2 ^ 32 ≤ 2 ^ (63 - Nat.log2 bound) := Nat.pow_le_pow_right (by decide) (by omega)
      calc rest * 2 ^ 32 < bound * 2 ^ 32 := Nat.mul_lt_mul_of_pos_right small (by positivity)
        _ ≤ bound * 2 ^ (63 - Nat.log2 bound) := Nat.mul_le_mul_left bound wide
    · rw [exact (Nat.le_antisymm few full), Nat.zero_mul]
      positivity
  have remainder : (number * 2 ^ 64 + rest * 2 ^ 32) % 2 ^ 64 = rest * 2 ^ 32 := by
    rw [Nat.mul_comm number, Nat.mul_add_mod, Nat.mod_eq_of_lt below]
  have quotient : (number * 2 ^ 64 + rest * 2 ^ 32) / 2 ^ 64 = number := by
    rw [Nat.mul_comm number, Nat.mul_add_div (by positivity), Nat.div_eq_of_lt below, Nat.add_zero]
  have size : UInt64.size = 2 ^ 64 := rfl
  rw [scaled, word, whole, size, Nat.shiftLeft_eq, remainder, quotient, if_pos inZone]

/-- There are fair tapes. -/
theorem fair_circle : circle.Fair := by
  intro bound avoided position many few
  have reached : ∀ place < 2 ^ 32, ∃ step < patience, (position + step) % 2 ^ 32 = place := by
    intro place inCircle
    refine ⟨(place + (2 ^ 32 - position % 2 ^ 32)) % 2 ^ 32, Nat.mod_lt _ (by positivity), ?_⟩
    norm_num at inCircle ⊢
    omega
  -- The word zero stands for the number zero, and the first multiple past the circle for one.
  by_cases zero : avoided = 0
  · obtain ⟨place, left, division, small⟩ :
        ∃ place left, place * bound + left = 2 ^ 32 + bound - 1 ∧ left < bound :=
      ⟨_, _, Nat.div_add_mod' (2 ^ 32 + bound - 1) bound, Nat.mod_lt _ (by omega)⟩
    have product : place * bound = 1 * 2 ^ 32 + (bound - 1 - left) := by omega
    have inCircle : place < 2 ^ 32 := by
      by_contra beyond
      have wide := Nat.mul_le_mul_right bound (Nat.not_lt.mp beyond)
      norm_num at wide division
      omega
    obtain ⟨step, inTime, isStep⟩ := reached place inCircle
    refine ⟨step, inTime, 1, ?_, zero ▸ Nat.one_ne_zero⟩
    show scaled bound (UInt64.ofNat ((position + step) % 2 ^ 32 * 2 ^ 32)) = some 1
    rw [isStep]
    apply scaled_circle many few inCircle product (by omega)
    intro full
    rw [full] at division
    norm_num at full division
    omega
  · obtain ⟨step, inTime, isStep⟩ := reached 0 (by positivity)
    refine ⟨step, inTime, 0, ?_, Ne.symm zero⟩
    show scaled bound (UInt64.ofNat ((position + step) % 2 ^ 32 * 2 ^ 32)) = some 0
    rw [isStep]
    have nothing : 0 * bound = 0 * 2 ^ 32 + 0 := by norm_num
    exact scaled_circle many few (by positivity) nothing (by omega) fun _ => rfl

end Tape

namespace Drawing

section

variable {α β : Type} {draw : Drawing α} {next : α → Drawing β} {tape middle : Tape} {value : α}

/-- A draw goes on with what was drawn first. -/
theorem bind_of_ok (drawn : draw tape = .ok (value, middle)) :
    (draw >>= next) tape = next value middle := by
  simp only [bind, StateT.bind, Except.bind, drawn]

theorem bind_of_error {failure : Failure} (failed : draw tape = .error failure) :
    (draw >>= next) tape = .error failure := by
  simp only [bind, StateT.bind, Except.bind, failed]

theorem of_bind_eq_ok {last : β} {after : Tape}
    (drawn : (draw >>= next) tape = .ok (last, after)) :
    ∃ value middle, draw tape = .ok (value, middle) ∧ next value middle = .ok (last, after) := by
  cases first : draw tape with
  | error failure =>
      rw [bind_of_error first] at drawn
      cases drawn
  | ok pair =>
      rw [bind_of_ok first] at drawn
      exact ⟨pair.1, pair.2, rfl, drawn⟩

theorem of_bind_eq_error {failure : Failure} (failed : (draw >>= next) tape = .error failure) :
    draw tape = .error failure ∨
      ∃ value middle, draw tape = .ok (value, middle) ∧ next value middle = .error failure := by
  cases first : draw tape with
  | error reason =>
      rw [bind_of_error first] at failed
      exact Or.inl (congrArg _ (Except.error.inj failed))
  | ok pair =>
      rw [bind_of_ok first] at failed
      exact Or.inr ⟨pair.1, pair.2, rfl, failed⟩

/-- A step that does not draw leaves the tape. -/
theorem liftM_of_ok {outcome : Outcome α} (succeeded : outcome = .ok value) (tape : Tape) :
    (liftM outcome : Drawing α) tape = .ok (value, tape) := by
  rw [succeeded]
  rfl

theorem of_liftM_bind_eq_ok {outcome : Outcome α} {last : β} {after : Tape}
    (drawn : ((liftM outcome : Drawing α) >>= next) tape = .ok (last, after)) :
    ∃ value, outcome = .ok value ∧ next value tape = .ok (last, after) := by
  cases outcome with
  | error failure => cases drawn
  | ok value => exact ⟨value, rfl, drawn⟩

theorem of_liftM_bind_eq_error {outcome : Outcome α} {failure : Failure}
    (failed : ((liftM outcome : Drawing α) >>= next) tape = .error failure) :
    outcome = .error failure ∨
      ∃ value, outcome = .ok value ∧ next value tape = .error failure := by
  cases outcome with
  | error reason => exact Or.inl (congrArg _ (Except.error.inj failed))
  | ok value => exact Or.inr ⟨value, rfl, failed⟩

end

/-- A search finds something that is accepted, or has rejected as many words as it may. -/
theorem search_cases {α : Type} (accept : UInt64 → Option α) (tape : Tape) :
    (∃ value after word, search accept tape = .ok (value, after) ∧ after.word = tape.word ∧
        accept word = some value) ∨
      (search accept tape = .error .exhausted ∧
        ∀ step < Tape.patience, accept (tape.word (tape.position + step)) = none) := by
  obtain ⟨same, found, missed⟩ := Tape.search_spec accept Tape.patience tape
  rw [search]
  rcases searched : Tape.search accept Tape.patience tape with ⟨_ | value, after⟩
  · rw [searched] at missed
    exact Or.inr ⟨rfl, missed rfl⟩
  · rw [searched] at same found
    obtain ⟨word, accepted⟩ := found value rfl
    exact Or.inl ⟨value, after, word, rfl, same, accepted⟩

theorem error_of_search {α : Type} {accept : UInt64 → Option α} {tape : Tape} {failure : Failure}
    (failed : search accept tape = .error failure) : failure = .exhausted := by
  rcases search_cases accept tape with ⟨_, _, _, found, -⟩ | ⟨exhausted, -⟩
  · cases found.symm.trans failed
  · exact (Except.error.inj (exhausted.symm.trans failed)).symm

/-- A number below a bound is drawn, or the tape is not fair. -/
theorem below_cases {bound : Nat} (many : 2 ≤ bound) (few : bound ≤ 2 ^ 32) (tape : Tape) :
    (∃ number after, below bound tape = .ok (number, after) ∧ after.word = tape.word ∧
        number < bound) ∨
      (below bound tape = .error .exhausted ∧ ¬ tape.Fair) := by
  rcases search_cases (Tape.scaled bound) tape with
    ⟨number, after, word, found, same, accepted⟩ | ⟨exhausted, rejected⟩
  · exact Or.inl ⟨number, after, found, same, Tape.lt_of_scaled accepted⟩
  · refine Or.inr ⟨exhausted, ?_⟩
    intro fair
    obtain ⟨step, inTime, number, accepted, -⟩ := fair bound bound tape.position many few
    rw [rejected step inTime] at accepted
    cases accepted

/-- Only members other than the excluded one are drawn. -/
theorem of_memberExcept {members : List Nat} {excluded member : Nat} {tape after : Tape}
    (drawn : memberExcept members excluded tape = .ok (member, after)) :
    after.word = tape.word ∧ member ∈ members ∧ member ≠ excluded := by
  rcases search_cases _ tape with ⟨_, _, word, found, same, accepted⟩ | ⟨exhausted, -⟩
  · obtain ⟨rfl, rfl⟩ := Prod.mk.inj (Except.ok.inj (found.symm.trans drawn))
    obtain ⟨place, isPlace, accepted⟩ := Option.bind_eq_some_iff.mp accepted
    obtain ⟨held, isHeld, accepted⟩ := Option.bind_eq_some_iff.mp accepted
    split at accepted
    · cases accepted
    · obtain rfl := Option.some.inj accepted
      exact ⟨same, List.mem_of_getElem? isHeld, by assumption⟩
  · cases exhausted.symm.trans drawn

/-- Another member is drawn, or the tape is not fair. -/
theorem memberExcept_cases {members : List Nat} (distinct : members.Nodup)
    (many : 2 ≤ members.length) (few : members.length ≤ 2 ^ 32) (excluded : Nat) (tape : Tape) :
    (∃ member after, memberExcept members excluded tape = .ok (member, after) ∧
        after.word = tape.word ∧ member ∈ members ∧ member ≠ excluded) ∨
      (memberExcept members excluded tape = .error .exhausted ∧ ¬ tape.Fair) := by
  have accept : ∀ {word : UInt64} {place : Nat} (inside : place < members.length),
      Tape.scaled members.length word = some place → members[place] ≠ excluded →
      (Tape.scaled members.length word >>= fun place => members[place]? >>= fun member =>
        if member = excluded then none else some member) = some members[place] := by
    intro word place inside isPlace other
    simp [isPlace, List.getElem?_eq_getElem inside, other]
  rcases search_cases _ tape with ⟨member, after, -, found, -⟩ | ⟨exhausted, rejected⟩
  · exact Or.inl ⟨member, after, found, of_memberExcept found⟩
  · refine Or.inr ⟨exhausted, ?_⟩
    intro fair
    obtain ⟨step, inTime, place, isPlace, elsewhere⟩ :=
      fair members.length (members.idxOf excluded) tape.position many few
    have inside := Tape.lt_of_scaled isPlace
    have other : members[place] ≠ excluded := by
      intro same
      apply elsewhere
      rw [← same, distinct.idxOf_getElem]
    have accepted := accept inside isPlace other
    rw [rejected step inTime] at accepted
    cases accepted

end Drawing

end PrivateRetrieval
