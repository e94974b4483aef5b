/-
# Runs of a client of the punctured scheme

A client is made of an honest hint and then queries for rows and for nothing. Answers may come
in any order, late, more than once, or not at all. What is asked of them is that honest servers
give them, and that a refresh is only completed while the set that it uses up is still in its
slot.

In every run the client stays sound, and every query that was made can be answered. The reason
is that the sets which are on their way to a slot have numbers of their own: each number is
drawn once, and it is drawn for one slot.
-/

import PrivateRetrieval.Proofs.Hints.Preparation
import PrivateRetrieval.Proofs.Hints.Queries
import PrivateRetrieval.Proofs.Sets.Pairs

namespace PrivateRetrieval

namespace PuncturedClient

/-- The clients that runs over a table lead to, together with the queries that were made and
with how many numbers of sets were drawn. Every call has a tape of its own, so a run makes any
choices. -/
inductive Run (table : Table) (sums : SetSums) : PuncturedClient → List AskedSet → Nat → Prop
  | start {seed : Label} {multiplier : Nat} {tape later : Tape} {client : PuncturedClient} :
      table.setSums seed multiplier = .ok sums → ofHint sums tape = .ok (client, later) →
      Run table sums client [] sums.draws
  | query {client after : PuncturedClient} {asked : List AskedSet} {drawn row : Nat}
      {tape later : Tape} {queries : Sides SetQuery} {pending : PendingSet} :
      Run table sums client asked drawn →
      client.query row tape = (.ok (queries, pending), after, later) →
      Run table sums after (⟨row, queries, pending, client.usedBy pending⟩ :: asked)
        (drawn + client.current.draws)
  | refused {client after : PuncturedClient} {asked : List AskedSet} {drawn row : Nat}
      {tape later : Tape} {failure : Failure} :
      Run table sums client asked drawn →
      client.query row tape = (.error failure, after, later) → Run table sums after asked drawn
  | dummy {client after : PuncturedClient} {asked : List AskedSet} {drawn : Nat}
      {tape later : Tape} {queries : Sides SetQuery} :
      Run table sums client asked drawn → client.dummy tape = (.ok queries, after, later) →
      Run table sums after asked (drawn + client.current.draws)
  | answer {client after : PuncturedClient} {asked : List AskedSet} {drawn : Nat}
      {query : AskedSet} {answers : Sides SetAnswer} {row : Row} :
      Run table sums client asked drawn → query ∈ asked →
      table.answerSet query.queries.left = .ok answers.left →
      table.answerSet query.queries.right = .ok answers.right →
      client.usedBy query.pending = query.used →
      client.reconstruct query.pending answers = .ok (row, after) →
      Run table sums after asked drawn

/-- What holds in every run. -/
structure Keeps (client : PuncturedClient) (table : Table) (sums : SetSums)
    (asked : List AskedSet) (drawn : Nat) : Prop where
  sound : client.Sound table
  count : client.stored.size = sums.sums.length
  drawn_eq : client.current.nextNumber.toNat = drawn
  answerable : ∀ query ∈ asked, client.Answerable table query
  /-- The number of a set on its way to a slot is in no other slot. -/
  apart : ∀ query ∈ asked, ∀ slot set, query.pending = .refresh slot set → ∀ other stored,
    client.stored[other]? = some stored → stored.handle.number = set.handle.number → other = slot
  /-- No number is on its way to two slots. -/
  single : ∀ query ∈ asked, ∀ slot set, query.pending = .refresh slot set → ∀ other ∈ asked,
    ∀ place replacement, other.pending = .refresh place replacement →
    set.handle.number = replacement.handle.number → slot = place

variable {client after : PuncturedClient} {table : Table} {sums : SetSums} {asked : List AskedSet}
  {drawn : Nat}

/-- A refused query leaves the client as it is, or as looking for the row does, so it leaves it
sound. -/
theorem sound_of_refused (sound : client.Sound table) {row : Nat} {tape later : Tape}
    {failure : Failure} (refused : client.query row tape = (.error failure, after, later)) :
    after.Sound table := by
  obtain ⟨soundLocated, -⟩ := locate_spec sound row
  cases queryEnds refused with
  | noHint => exact sound
  | notCovered _ located => rwa [located] at soundLocated
  | failed _ located _ => rwa [located] at soundLocated

namespace Keeps

/-- A client that went on and made no query keeps what holds. -/
theorem of_wentOn (keeps : client.Keeps table sums asked drawn) (wentOn : client.WentOn after)
    (sound : after.Sound table) {more : Nat}
    (later : after.current.nextNumber.toNat = drawn + more) :
    after.Keeps table sums asked (drawn + more) where
  sound := sound
  count := wentOn.stored ▸ keeps.count
  drawn_eq := later
  answerable := fun query member => wentOn.answerable (keeps.answerable query member)
  apart := wentOn.stored ▸ keeps.apart
  single := keeps.single

theorem hasNumbersLeft (keeps : client.Keeps table sums asked drawn)
    (left : drawn + client.current.draws < 2 ^ 32) : client.current.HasNumbersLeft := by
  rw [SetGenerator.HasNumbersLeft, keeps.drawn_eq]
  exact left

theorem query (keeps : client.Keeps table sums asked drawn)
    (left : drawn + client.current.draws < 2 ^ 32) {row : Nat} {tape later : Tape}
    {queries : Sides SetQuery} {pending : PendingSet}
    (made : client.query row tape = (.ok (queries, pending), after, later)) :
    after.Keeps table sums (⟨row, queries, pending, client.usedBy pending⟩ :: asked)
      (drawn + client.current.draws) := by
  have numbers := keeps.hasNumbersLeft left
  rcases query_cases keeps.sound numbers row tape with ⟨failure, owner, refused, -⟩ |
    ⟨queries', pending', owner, fresh, current, later', asks, -, sound, draws, replaces, answerable⟩
  · rw [refused] at made
    cases made
  rw [asks] at made
  cases made
  have wentOn : client.WentOn { client with owner, current } := wentOn_of_draws draws
  have before := keeps.of_wentOn wentOn sound (keeps.drawn_eq ▸ draws.nextNumber)
  -- The number of the fresh set is beyond all numbers that are stored or on their way.
  have beyondStored : ∀ (other : Nat) (stored : StoredSet), client.stored[other]? = some stored →
      stored.handle.number ≠ fresh.handle.number := by
    intro other stored held same
    have earlier := (keeps.sound.stored held).2.2.trans_le draws.number_ge
    exact Nat.ne_of_lt earlier (congrArg UInt32.toNat same)
  have beyondAsked : ∀ query ∈ asked, ∀ slot set, query.pending = .refresh slot set →
      set.handle.number ≠ fresh.handle.number := by
    intro query member slot set isRefresh same
    obtain ⟨-, -, -, lt⟩ := (keeps.answerable query member).replacement slot set isRefresh
    exact Nat.ne_of_lt (lt.trans_le draws.number_ge) (congrArg UInt32.toNat same)
  refine { before with answerable := ?_, apart := ?_, single := ?_ }
  · rw [List.forall_mem_cons]
    exact ⟨answerable, before.answerable⟩
  · rw [List.forall_mem_cons]
    refine ⟨?_, before.apart⟩
    intro slot set isRefresh other stored held same
    rw [replaces slot set isRefresh] at same
    exact absurd same (beyondStored other stored held)
  · intro query member slot set isRefresh other memberOther place replacement isOther same
    rcases List.mem_cons.mp member with rfl | inAsked
    · rcases List.mem_cons.mp memberOther with rfl | otherInAsked
      · rw [isRefresh] at isOther
        cases isOther
        rfl
      · rw [replaces slot set isRefresh] at same
        exact absurd same.symm (beyondAsked other otherInAsked place replacement isOther)
    · rcases List.mem_cons.mp memberOther with rfl | otherInAsked
      · rw [replaces place replacement isOther] at same
        exact absurd same (beyondAsked query inAsked slot set isRefresh)
      · exact keeps.single query inAsked slot set isRefresh other otherInAsked place replacement
          isOther same

theorem refused (keeps : client.Keeps table sums asked drawn) {row : Nat} {tape later : Tape}
    {failure : Failure} (made : client.query row tape = (.error failure, after, later)) :
    after.Keeps table sums asked drawn := by
  have sound := sound_of_refused keeps.sound made
  obtain ⟨owner, rfl⟩ := exists_owner_of_refused made
  have wentOn : client.WentOn { client with owner } := ⟨rfl, rfl, rfl, rfl, rfl, Nat.le_refl _⟩
  have later : client.current.nextNumber.toNat = drawn + 0 := keeps.drawn_eq
  exact keeps.of_wentOn wentOn sound later

theorem dummy (keeps : client.Keeps table sums asked drawn)
    (left : drawn + client.current.draws < 2 ^ 32) {tape later : Tape} {queries : Sides SetQuery}
    (made : client.dummy tape = (.ok queries, after, later)) :
    after.Keeps table sums asked (drawn + client.current.draws) := by
  have numbers := keeps.hasNumbersLeft left
  rcases dummy_cases keeps.sound numbers tape with ⟨failed, -⟩ |
    ⟨queries', fresh, current, later', asks, -, sound, draws, -⟩
  · rw [failed] at made
    cases made
  rw [asks] at made
  cases made
  exact keeps.of_wentOn (wentOn_of_draws draws) sound (keeps.drawn_eq ▸ draws.nextNumber)

theorem answer (keeps : client.Keeps table sums asked drawn) {query : AskedSet}
    (member : query ∈ asked) {answers : Sides SetAnswer}
    (isLeft : table.answerSet query.queries.left = .ok answers.left)
    (isRight : table.answerSet query.queries.right = .ok answers.right)
    (isStored : client.usedBy query.pending = query.used) {row : Row}
    (made : client.reconstruct query.pending answers = .ok (row, after)) :
    after.Keeps table sums asked drawn := by
  obtain ⟨answers', isLeft', isRight', stored, owner, found, sound, size, slots⟩ :=
    reconstruct_spec keeps.sound (keeps.answerable query member) isStored
      (keeps.apart query member)
  have same : answers' = answers := by
    cases answers
    cases answers'
    rw [isLeft, Except.ok.injEq] at isLeft'
    rw [isRight, Except.ok.injEq] at isRight'
    rw [Sides.mk.injEq]
    exact ⟨isLeft'.symm, isRight'.symm⟩
  rw [same, made] at found
  cases found
  refine
    { sound := sound
      count := size.trans keeps.count
      drawn_eq := keeps.drawn_eq
      answerable := ?_
      apart := ?_
      single := keeps.single }
  · intro other inAsked
    obtain ⟨inside, answered, replacement⟩ := keeps.answerable other inAsked
    exact ⟨inside, answered, replacement⟩
  · intro other inAsked slot set isRefresh place held isHeld sameNumber
    rcases slots place held isHeld with before | ⟨replacement, isPending, handle⟩
    · exact keeps.apart other inAsked slot set isRefresh place held before sameNumber
    · rw [handle] at sameNumber
      exact keeps.single query member place replacement isPending other inAsked slot set isRefresh
        sameNumber

end Keeps

/-- What holds in every run, as long as the numbers do not run out. -/
theorem Run.keeps (few : table.rowCount ≤ 2 ^ 32) (run : Run table sums client asked drawn)
    (left : drawn < 2 ^ 32) : client.Keeps table sums asked drawn := by
  induction run with
  | start isHint made =>
      obtain ⟨sound, next, start⟩ := sound_ofHint few isHint left made
      exact ⟨sound, size_stored_ofHint made, start ▸ next, by simp, by simp, by simp⟩
  | query _ made ih => exact (ih (by omega)).query left made
  | refused _ made ih => exact (ih left).refused made
  | dummy _ made ih => exact (ih (by omega)).dummy left made
  | answer _ member isLeft isRight isStored made ih =>
      exact (ih left).answer member isLeft isRight isStored made

/-- In every run there are as many stored sets as the hint has sums, every stored hint is the
sum of the rows of its set, the numbers of the stored sets are distinct, and the slots that are
noted for rows have sets with these rows. Every query that was made is answered by honest
servers, and their answers give its row, as long as the set that it uses up is in its slot. The
calls that fail are refused, or draw forever on a tape that is not fair. -/
theorem Run.reconstruct_eq_row (few : table.rowCount ≤ 2 ^ 32)
    (run : Run table sums client asked drawn) (left : drawn < 2 ^ 32) :
    client.stored.size = sums.sums.length ∧
      (∀ set ∈ client.stored.toList,
        table.xorRows (client.rebuild set.handle).elements = .ok set.hint) ∧
      (∀ (first second : Nat) (set other : StoredSet), client.stored[first]? = some set →
        client.stored[second]? = some other → set.handle.number = other.handle.number →
        first = second) ∧
      (∀ row slot, client.owner[row]? = some (some slot) → client.Holds slot row) ∧
      (∀ query ∈ asked, client.usedBy query.pending = query.used →
        ∃ left right row after, table.answerSet query.queries.left = .ok left ∧
          table.answerSet query.queries.right = .ok right ∧ table.row query.row = .ok row ∧
          client.reconstruct query.pending ⟨left, right⟩ = .ok (row, after)) ∧
      (drawn + client.current.draws < 2 ^ 32 → ∀ tape : Tape,
        (∀ row failure, (client.query row tape).1 = .error failure →
          failure = .noHint ∧ client.stored.isEmpty = true ∨
            failure = .notCovered row ∧ (∀ slot, ¬ client.Holds slot row) ∨
            failure = .exhausted ∧ ¬ tape.Fair) ∧
        ∀ failure, (client.dummy tape).1 = .error failure →
          failure = .exhausted ∧ ¬ tape.Fair) := by
  have keeps := run.keeps few left
  have sound := keeps.sound
  refine ⟨keeps.count, ?_, sound.apart, sound.notes, ?_, fun more tape => ⟨?_, ?_⟩⟩
  · intro set member
    rw [sound.hint set member]
    exact Table.xorRows_eq_sumAt (sound.contains_rebuild set.handle)
  · intro query member isStored
    have answerable := keeps.answerable query member
    obtain ⟨answers, isLeft, isRight, stored, owner, found, -⟩ :=
      reconstruct_spec sound answerable isStored (keeps.apart query member)
    exact ⟨answers.left, answers.right, _, _, isLeft, isRight,
      Table.row_eq_rowAt answerable.inside, found⟩
  · intro row failure failed
    rcases query_cases sound (keeps.hasNumbersLeft more) row tape with
      ⟨reason, owner, refused, -, why⟩ | ⟨queries, pending, owner, fresh, current, later, made, -⟩
    · rw [refused] at failed
      cases failed
      exact why
    · rw [made] at failed
      cases failed
  · intro failure failed
    rcases dummy_cases sound (keeps.hasNumbersLeft more) tape with
      ⟨failedDraw, unfair⟩ | ⟨queries, fresh, current, later, made, -⟩
    · rw [failedDraw] at failed
      cases failed
      exact ⟨rfl, unfair⟩
    · rw [made] at failed
      cases failed

/-! ## A client of three rows -/

/-- An honest hint of one set for three rows, and the client that it makes. The keys of both
generators are the zero label, under which the first numbers stand for sets at once. -/
theorem exists_client_of_three_rows :
    ∃ (table : Table) (sums : SetSums) (client : PuncturedClient) (tape later : Tape),
      table.rowCount = 3 ∧ table.setSums .zero 1 = .ok sums ∧
      ofHint sums tape = .ok (client, later) ∧ sums.draws = 1 ∧ client.stored.size = 1 ∧
      client.setSize = 2 ∧ client.current.cipher = .ofKey .zero := by
  obtain ⟨table, rowCount⟩ : ∃ table : Table, table.rowCount = 3 :=
    ⟨⟨1, #[[1], [2], [3]], by simp, by simp⟩, rfl⟩
  have few : table.rowCount ≤ 2 ^ 32 := by
    rw [rowCount]
    decide
  have count : setCount 1 3 2 = 1 := by decide
  obtain ⟨generator, made⟩ : ∃ generator, SetGenerator.make .zero 0 3 2 = .ok generator := ⟨_, rfl⟩
  have many : generator.drawsMany (setCount 1 3 2) = 1 := by
    obtain ⟨domain, size, standard, next, -⟩ := SetGenerator.of_make made
    have one : generator.draws = 1 :=
      SetGenerator.draws_of_zeroKey domain size standard (SetGenerator.cipher_of_make made)
        (by rw [next]; decide)
    rw [count, SetGenerator.drawsMany, one]
    cases generator.fresh with
    | error failure => rfl
    | ok drawn => rfl
  obtain ⟨sums, isHint, setSize, length, draws⟩ :=
    Table.exists_setSums_of_three_rows rowCount made (by rw [many]; decide)
  rw [many] at draws
  obtain ⟨client, later, isClient⟩ := exists_ofHint isHint ⟨fun _ => 0, 0⟩
  obtain ⟨-, -, -, -, isCurrent, -⟩ := of_ofHint isClient
  obtain ⟨sound, -, -⟩ := sound_ofHint few isHint (by rw [draws]; decide) isClient
  refine ⟨table, sums, client, _, later, rowCount, isHint, isClient, draws,
    (size_stored_ofHint isClient).trans (length.trans count), ?_,
    SetGenerator.cipher_of_make isCurrent⟩
  rw [← sound.size_current, (SetGenerator.of_make isCurrent).2.1, setSize]

/-- That client draws a set with the first number that is left, as long as the first ones last. -/
theorem Keeps.draws_eq_one (keeps : client.Keeps table sums asked drawn)
    (rowCount : table.rowCount = 3) (size : client.setSize = 2)
    (cipher : client.current.cipher = .ofKey .zero) (early : drawn ≤ 2) :
    client.current.draws = 1 := by
  have standard : client.current.tree.children = Label.children := by
    rw [keeps.sound.sameTree]
    exact keeps.sound.standard
  exact SetGenerator.draws_of_zeroKey (keeps.sound.domain_current.trans rowCount)
    (keeps.sound.size_current.trans size) standard cipher (keeps.drawn_eq.trans_le early)

/-- A row that was queried in a table of three rows, after a hint of one set. -/
theorem reconstruct_of_one_set :
    ∃ table sums client query drawn, table.rowCount ≤ 2 ^ 32 ∧
      Run table sums client [query] drawn ∧ drawn < 2 ^ 32 ∧ client.stored.size = 1 ∧
      ∃ left right row after, table.answerSet query.queries.left = .ok left ∧
        table.answerSet query.queries.right = .ok right ∧ table.row query.row = .ok row ∧
        client.reconstruct query.pending ⟨left, right⟩ = .ok (row, after) := by
  obtain ⟨table, sums, client, _, _, rowCount, isHint, isClient, draws, stored, size, cipher⟩ :=
    exists_client_of_three_rows
  have few : table.rowCount ≤ 2 ^ 32 := by
    rw [rowCount]
    decide
  have start := Run.start isHint isClient
  rw [draws] at start
  have keeps := start.keeps few (by decide)
  have one : client.current.draws = 1 := keeps.draws_eq_one rowCount size cipher (by decide)
  have left : 1 + client.current.draws < 2 ^ 32 := by
    rw [one]
    decide
  -- The stored set has a row, which is queried.
  obtain ⟨row, holds⟩ := keeps.sound.exists_holds (stored ▸ Nat.one_pos : 0 < client.stored.size)
  rcases query_cases keeps.sound (keeps.hasNumbersLeft left) row .circle with
    ⟨failure, owner, -, -, ⟨-, empty⟩ | ⟨-, missed⟩ | ⟨-, unfair⟩⟩ |
    ⟨queries, pending, owner, fresh, current, later, asks, -⟩
  · rw [Array.isEmpty_iff_size_eq_zero, stored] at empty
    exact absurd empty Nat.one_ne_zero
  · exact absurd holds (missed 0)
  · exact absurd Tape.fair_circle unfair
  · have run := start.query asks
    obtain ⟨-, -, -, -, answered, -⟩ := run.reconstruct_eq_row few left
    exact ⟨table, sums, _, _, _, few, run, left, stored, answered _ List.mem_cons_self rfl⟩

end PuncturedClient

end PrivateRetrieval
