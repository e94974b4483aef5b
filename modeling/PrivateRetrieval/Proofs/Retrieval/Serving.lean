/-
# Clients that serve a table

A client serves a table if what it knows of the table is right. For three schemes that is the
shape of the table, and for the punctured scheme it is a sound table of hints. A row that such a
client queries is found in the answers of two servers that hold the table, and the client that
the answers lead to serves the table again. Queries for nothing are answered as well, so that
they do not keep the answers to other queries back.

A client of the punctured scheme may refuse a row, and it has to have numbers for fresh sets.
Clients whose hint used up the numbers already are none that anything is said about.
-/

import PrivateRetrieval.Proofs.Hints.Preparation
import PrivateRetrieval.Proofs.Hints.Queries
import PrivateRetrieval.Proofs.Retrieval.ShapeQueries
import PrivateRetrieval.Proofs.Sets.Pairs
import PrivateRetrieval.Retrieval.Client

namespace PrivateRetrieval

namespace PuncturedClient

/-- How many numbers of sets the hint used up. -/
def hintDraws (client : PuncturedClient) : Nat :=
  SetGenerator.drawsMany client.stored.size { client.hinted with nextNumber := 0 }

/-- How many numbers of sets were drawn, those of the hint and those of queries since. -/
def drawn (client : PuncturedClient) : Nat :=
  client.hintDraws + (client.current.nextNumber - client.hinted.nextNumber).toNat

/-- Whether the numbers that the next set uses up are left. -/
def HasNumbersLeft (client : PuncturedClient) : Prop :=
  client.drawn + client.current.draws < 2 ^ 32

/-- Whether the numbers that so many further sets use up are left. -/
def HasNumbersFor (client : PuncturedClient) (count : Nat) : Prop :=
  client.drawn + client.current.drawsMany count < 2 ^ 32

/-- A client has stored sets, and it is sound unless its hint used up all numbers. -/
structure Serves (client : PuncturedClient) (table : Table) : Prop where
  stored : 0 < client.stored.size
  sound : client.hintDraws < 2 ^ 32 →
    client.Sound table ∧ client.hinted.nextNumber.toNat = client.hintDraws

/-- The stored hints of a client are the sums of the rows of a table, for the sets that the hint's
generator rebuilds. These are the sets that the client takes them for, unless the hint used up all
numbers. -/
structure SumsOver (client : PuncturedClient) (table : Table) : Prop where
  stored : 0 < client.stored.size
  rowLength : client.rowLength = table.rowLength
  rowCount : client.rowCount = table.rowCount
  hint : ∀ set ∈ client.stored.toList,
    table.xorRows (client.hinted.rebuild set.handle).elements = .ok set.hint
  rebuild : client.hintDraws < 2 ^ 32 → ∀ set ∈ client.stored.toList,
    client.rebuild set.handle = client.hinted.rebuild set.handle

variable {client : PuncturedClient} {table : Table}

/-- A client that has numbers left is sound, and its later generator has them. -/
theorem Serves.sound_of_hasNumbersLeft (serves : client.Serves table)
    (left : client.HasNumbersLeft) :
    client.Sound table ∧ client.current.HasNumbersLeft := by
  rw [HasNumbersLeft, drawn] at left
  obtain ⟨sound, start⟩ := serves.sound (by omega)
  refine ⟨sound, ?_⟩
  have since : (client.current.nextNumber - client.hinted.nextNumber).toNat =
      client.current.nextNumber.toNat - client.hinted.nextNumber.toNat :=
    UInt32.toNat_sub_of_le _ _ (UInt32.le_iff_toNat_le.mpr sound.inOrder)
  have inOrder := sound.inOrder
  rw [since, ← start] at left
  rw [SetGenerator.HasNumbersLeft]
  omega

theorem HasNumbersFor.hasNumbersLeft {count : Nat} (left : client.HasNumbersFor (count + 1)) :
    client.HasNumbersLeft := by
  rw [HasNumbersFor, SetGenerator.drawsMany] at left
  rw [HasNumbersLeft]
  omega

/-- A query uses up the numbers of one set, and the stored sets contain the same rows after it. -/
theorem HasNumbersFor.of_query (serves : client.Serves table) {count row : Nat}
    (left : client.HasNumbersFor (count + 1)) {tape later : Tape} {after : PuncturedClient}
    {asked : Sides SetQuery × PendingSet}
    (made : client.query row tape = (.ok asked, after, later)) :
    after.HasNumbersFor count ∧ later.word = tape.word ∧
      ∀ slot row, client.Holds slot row → after.Holds slot row := by
  obtain ⟨sound, numbers⟩ := serves.sound_of_hasNumbersLeft left.hasNumbersLeft
  rcases query_cases sound numbers row tape with
    ⟨failure, owner, refused, -⟩ | ⟨queries, pending, owner, fresh, current, later', asks, same, -,
      draws, -⟩
  · cases made.symm.trans refused
  · cases made.symm.trans asks
    have inOrder := sound.inOrder
    have next := draws.nextNumber
    have since {generator : SetGenerator}
        (later : client.hinted.nextNumber.toNat ≤ generator.nextNumber.toNat) :
        (generator.nextNumber - client.hinted.nextNumber).toNat =
          generator.nextNumber.toNat - client.hinted.nextNumber.toNat :=
      UInt32.toNat_sub_of_le _ _ (UInt32.le_iff_toNat_le.mpr later)
    refine ⟨?_, same, ?_⟩
    · rw [HasNumbersFor, drawn, draws.drawsMany_succ numbers, since inOrder] at left
      show client.hintDraws + (current.nextNumber - client.hinted.nextNumber).toNat +
        current.drawsMany count < 2 ^ 32
      rw [since (by omega)]
      omega
    · rintro slot row ⟨set, held, member⟩
      have same : ∀ handle, rebuild { client with owner, current } handle = client.rebuild handle :=
        rebuild_congr rfl draws.tree draws.cipher
      exact ⟨set, held, by rwa [same]⟩

/-- A client that stays sound and keeps its hint and as many stored sets still serves the table. -/
theorem Serves.of_sound (serves : client.Serves table) (left : client.HasNumbersLeft)
    {after : PuncturedClient} (sound : after.Sound table) (hinted : after.hinted = client.hinted)
    (size : after.stored.size = client.stored.size) : after.Serves table where
  stored := size ▸ serves.stored
  sound := by
    intro _
    rw [HasNumbersLeft, drawn] at left
    refine ⟨sound, ?_⟩
    rw [hintDraws, hinted, size]
    exact (serves.sound (by omega)).2

section OfHint

variable {seed : Label} {multiplier : Nat} {sums : SetSums} {tape after : Tape}

/-- A client that is made of a hint counts the numbers that the hint used up. -/
theorem hintDraws_ofHint (made : ofHint sums tape = .ok (client, after)) :
    client.hintDraws = sums.draws := by
  obtain ⟨generator, sets, isGenerator, isDrawn, -, -, -, -, -⟩ := of_ofHint made
  obtain ⟨tree, cipher, -⟩ := SetGenerator.of_freshMany isDrawn
  obtain ⟨-, -, -, start, -⟩ := SetGenerator.of_make isGenerator
  -- The first generator is that of the hint before it drew.
  have first : generator = { client.hinted with nextNumber := 0 } := by
    cases generator
    simp only at tree cipher start
    simp only [tree, cipher, start]
  rw [hintDraws, size_stored_ofHint made, ← first, SetSums.draws, isGenerator]

/-- A client that is made of an honest hint has as many stored sets as the hint has sets. -/
theorem size_stored_of_setSums (isHint : table.setSums seed multiplier = .ok sums)
    (made : ofHint sums tape = .ok (client, after)) :
    client.stored.size = setCount multiplier table.rowCount (setSizeFor table.rowCount) := by
  obtain ⟨generator, sets, hinted, -, isDrawn, areSums, -, -, -⟩ := Table.of_setSums isHint
  rw [size_stored_ofHint made, length_of_mapM_eq_ok areSums, SetGenerator.length_freshMany isDrawn]

/-- A client that is made of an honest hint serves the table, if the hint has a sum. -/
theorem serves_ofHint (few : table.rowCount ≤ 2 ^ 32)
    (isHint : table.setSums seed multiplier = .ok sums)
    (filled : 0 < setCount multiplier table.rowCount (setSizeFor table.rowCount))
    (made : ofHint sums tape = .ok (client, after)) :
    client.Serves table ∧ after.word = tape.word := by
  obtain ⟨-, -, -, -, -, -, -, -, word⟩ := of_ofHint made
  refine ⟨⟨?_, fun left => ?_⟩, word⟩
  · rw [size_stored_of_setSums isHint made]
    exact filled
  · rw [hintDraws_ofHint made] at left ⊢
    obtain ⟨sound, start, -⟩ := sound_ofHint few isHint left made
    exact ⟨sound, start⟩

/-- The hints of a client that is made of an honest hint are sums of the table, however many rows
there are. -/
theorem sumsOver_ofHint (isHint : table.setSums seed multiplier = .ok sums)
    (filled : 0 < setCount multiplier table.rowCount (setSizeFor table.rowCount))
    (made : ofHint sums tape = .ok (client, after)) : client.SumsOver table := by
  obtain ⟨generator, sets, hinted, isGenerator, isDrawn, areSums, shape, -, -⟩ :=
    Table.of_setSums isHint
  obtain ⟨generator', sets', isGenerator', isDrawn', -, rowLength, stored, -, -⟩ := of_ofHint made
  obtain rfl : generator = generator' := Except.ok.inj (isGenerator.symm.trans isGenerator')
  obtain ⟨domain, -, -, -, -⟩ := SetGenerator.of_make isGenerator
  obtain ⟨tree, cipher, owns⟩ := SetGenerator.of_freshMany isDrawn'
  -- The client draws as many sets as the server did, and so the same ones.
  rw [length_of_mapM_eq_ok areSums, SetGenerator.length_freshMany isDrawn] at isDrawn'
  obtain ⟨rfl, -⟩ := Prod.mk.inj (Except.ok.inj (isDrawn.symm.trans isDrawn'))
  have rebuilt : ∀ set ∈ sets, client.hinted.rebuild set.handle = set := fun set member =>
    (SetGenerator.owns_congr tree cipher).mpr (owns set member)
  have ofStored : ∀ set ∈ client.stored.toList, ∃ keyed ∈ sets,
      table.xorRows keyed.elements = .ok set.hint ∧ set.handle = keyed.handle := by
    intro set member
    rw [stored, List.toList_toArray, ← List.map_uncurry_zip_eq_zipWith] at member
    obtain ⟨⟨keyed, hint⟩, inZip, rfl⟩ := List.mem_map.mp member
    exact ⟨keyed, (List.of_mem_zip inZip).1,
      List.forall₂_zip (forall₂_of_mapM_eq_ok areSums) inZip, rfl⟩
  refine ⟨?_, ?_, ?_, ?_, ?_⟩
  · rw [size_stored_of_setSums isHint made]
    exact filled
  · rw [rowLength, shape, Table.shape]
  · rw [rowCount, tree, domain, shape, Table.shape]
  · intro set member
    obtain ⟨keyed, inSets, isSum, handle⟩ := ofStored set member
    rw [handle, rebuilt keyed inSets, isSum]
  · intro left
    rw [hintDraws_ofHint made] at left
    obtain ⟨_, _, stores, -⟩ := exists_storesDrawn isHint left made
    refine stores.forall_stored ?_
    intro set member
    rw [stores.rebuild_handle member]
    exact ((SetGenerator.owns_congr stores.drawn.tree stores.drawn.cipher).mpr
      (stores.drawn.owns set member)).symm

/-- A new client counts the numbers up to the first one of its later generator. -/
theorem drawn_ofHint (few : table.rowCount ≤ 2 ^ 32)
    (isHint : table.setSums seed multiplier = .ok sums) (left : sums.draws < 2 ^ 32)
    (made : ofHint sums tape = .ok (client, after)) :
    client.drawn = sums.draws ∧ client.current.nextNumber.toNat = sums.draws := by
  obtain ⟨-, start, next⟩ := sound_ofHint few isHint left made
  refine ⟨?_, next ▸ start⟩
  rw [drawn, hintDraws_ofHint made, next, UInt32.sub_self]
  rfl

end OfHint

/-- The hint that is asked for first on the tape in a circle, over a table of three rows, and the
client that is made of it. It draws sets of two rows, and there are numbers for two queries. -/
theorem exists_ofHint_of_circle (rowCount : table.rowCount = 3) :
    ∃ sums client later, table.setSums Tape.circle.label.1 setMultiplier = .ok sums ∧
      ofHint sums Tape.circle.label.2 = .ok (client, later) ∧
      client.current.tree.domain = 3 ∧ client.current.tree.size = 2 ∧ client.HasNumbersFor 2 := by
  have few : table.rowCount ≤ 2 ^ 32 := by
    rw [rowCount]
    decide
  have count : setCount setMultiplier 3 2 = 132 := by decide
  obtain ⟨generator, made⟩ : ∃ generator,
      SetGenerator.make Tape.circle.label.1 0 3 2 = .ok generator := ⟨_, rfl⟩
  obtain ⟨domain, size, standard, next, -⟩ := SetGenerator.of_make made
  have fewDraws : generator.drawsMany 132 ≤ 200 :=
    SetGenerator.drawsMany_le_of_circle domain size standard (SetGenerator.cipher_of_make made) next
  have left : generator.drawsMany (setCount setMultiplier 3 2) < 2 ^ 32 := by
    rw [count]
    omega
  obtain ⟨sums, isHint, setSize, length, draws⟩ :=
    Table.exists_setSums_of_three_rows rowCount made left
  obtain ⟨client, later, isClient⟩ := exists_ofHint isHint Tape.circle.label.2
  rw [count] at draws
  obtain ⟨isDrawn, isNext⟩ := drawn_ofHint few isHint (by omega) isClient
  obtain ⟨-, -, -, -, isCurrent, -⟩ := of_ofHint isClient
  obtain ⟨domainCurrent, sizeCurrent, standardCurrent, -, -⟩ := SetGenerator.of_make isCurrent
  obtain ⟨-, -, -, -, -, -, isShape, -, -⟩ := Table.of_setSums isHint
  have domainCurrent := domainCurrent.trans (isShape ▸ rowCount : sums.shape.rowCount = 3)
  have sizeCurrent := sizeCurrent.trans setSize
  have fewLater := SetGenerator.add_drawsMany_le_of_circle domainCurrent sizeCurrent
    standardCurrent (SetGenerator.cipher_of_make isCurrent) (by omega)
  refine ⟨sums, client, later, isHint, isClient, domainCurrent, sizeCurrent, ?_⟩
  rw [HasNumbersFor]
  omega

end PuncturedClient

/-- The hint of a table that is large enough for sets has a sum. -/
theorem setCount_pos_of_setSums {table : Table} {seed : Label} {sums : SetSums}
    (made : table.setSums seed setMultiplier = .ok sums) :
    0 < setCount setMultiplier table.rowCount (setSizeFor table.rowCount) := by
  obtain ⟨generator, -, -, isGenerator, -, -, isShape, isSize, -⟩ := Table.of_setSums made
  obtain ⟨domain, size, -, -, -⟩ := SetGenerator.of_make isGenerator
  have fits := generator.tree.size_le
  have positive := generator.tree.size_pos
  rw [domain, isShape] at fits
  rw [size, isSize] at fits positive
  have fits : setSizeFor table.rowCount ≤ table.rowCount := fits
  rw [setCount, setMultiplier]
  exact Nat.div_pos (by omega) positive

namespace Client

/-- What a client knows of a table is right. -/
def Serves (client : Client) (table : Table) : Prop :=
  match client with
  | .puncturedSets inner => inner.Serves table
  | .pointFunction shape | .matrix shape | .plain shape => shape = table.shape

/-- The hints that a client stores are sums of the rows of a table. The schemes that store no hints
know the shape of the table. -/
def SumsOver (client : Client) (table : Table) : Prop :=
  match client with
  | .puncturedSets inner => inner.SumsOver table
  | .pointFunction shape | .matrix shape | .plain shape => shape = table.shape

/-- Whether a client has the numbers left that its next set uses up, if it draws sets. -/
def HasNumbersLeft : Client → Prop
  | .puncturedSets inner => inner.HasNumbersLeft
  | .pointFunction _ | .matrix _ | .plain _ => True

/-- Whether a client can ask for a row. That of the punctured scheme needs a stored set with the
row. -/
def Covers : Client → Nat → Prop
  | .puncturedSets inner, row => ∃ slot, inner.Holds slot row
  | .pointFunction _, _ | .matrix _, _ | .plain _, _ => True

/-- Two servers that hold a table answer queries. -/
def Answered (table : Table) (queries : Sides Query) (answers : Sides Answer) : Prop :=
  table.answer queries.left = .ok answers.left ∧ table.answer queries.right = .ok answers.right

/-- A client finds a row in answers, and serves the table afterwards. -/
def Finds (client : Client) (table : Table) (row : Nat) (pending : Pending)
    (answers : Sides Answer) : Prop :=
  ∃ after, client.reconstruct pending answers = .ok (table.rowAt row, after) ∧
    after.Serves table ∧ after.scheme = client.scheme

variable {client : Client} {table : Table}

theorem answered_puncturedSets {queries : Sides SetQuery} {left right : SetAnswer}
    (isLeft : table.answerSet queries.left = .ok left)
    (isRight : table.answerSet queries.right = .ok right) :
    Answered table (queries.map .puncturedSets) ⟨.puncturedSets left, .puncturedSets right⟩ := by
  constructor
  · simp only [Sides.map, Table.answer, isLeft]
    rfl
  · simp only [Sides.map, Table.answer, isRight]
    rfl

theorem answered_pointFunction {shares : Sides PointShare} {left right : Row}
    (isLeft : table.answerShare shares.left = .ok left)
    (isRight : table.answerShare shares.right = .ok right) :
    Answered table (shares.map .pointFunction) ⟨.pointFunction left, .pointFunction right⟩ := by
  constructor
  · simp only [Sides.map, Table.answer, isLeft]
    rfl
  · simp only [Sides.map, Table.answer, isRight]
    rfl

theorem answered_matrix {selections : Sides (List Bool)} {left right : Row}
    (isLeft : table.answerLines selections.left = .ok left)
    (isRight : table.answerLines selections.right = .ok right) :
    Answered table (selections.map .matrix) ⟨.matrix left, .matrix right⟩ := by
  constructor
  · simp only [Sides.map, Table.answer, isLeft]
    rfl
  · simp only [Sides.map, Table.answer, isRight]
    rfl

theorem answered_plain {row : Nat} (inside : row < table.rowCount) :
    Answered table (.both (.plain row)) (.both (.plain (table.rowAt row))) := by
  have answered : table.answer (.plain row) = .ok (.plain (table.rowAt row)) := by
    simp only [Table.answer, Table.row_eq_rowAt inside]
    rfl
  exact ⟨answered, answered⟩

theorem check_of_lt {row : Nat} (inside : row < table.rowCount) :
    table.shape.check row = .ok () :=
  if_pos inside

/-- The punctured scheme refuses rows that no stored set contains, and finds all others. -/
theorem query_cases_puncturedSets {inner : PuncturedClient} (serves : inner.Serves table)
    (left : inner.HasNumbersLeft) (row : Nat) (tape : Tape) :
    (∃ queries pending after later answers,
        (Client.puncturedSets inner).query row tape = (.ok (queries, pending), after, later) ∧
        later.word = tape.word ∧ after.Serves table ∧ after.scheme = .puncturedSets ∧
        Answered table queries answers ∧ after.Finds table row pending answers) ∨
      ∃ failure after, (Client.puncturedSets inner).query row tape =
          (.error failure, after, tape) ∧
        after.Serves table ∧ after.scheme = .puncturedSets ∧
        (failure = .notCovered row ∧ (∀ slot, ¬ inner.Holds slot row) ∨
          failure = .exhausted ∧ ¬ tape.Fair) := by
  obtain ⟨sound, numbers⟩ := serves.sound_of_hasNumbersLeft left
  rcases PuncturedClient.query_cases sound numbers row tape with
    ⟨failure, owner, refused, soundAfter, why⟩ |
    ⟨queries, pending, owner, fresh, current, later, asks, same, soundAfter, draws, replaces,
      answerable⟩
  · refine Or.inr ⟨failure, .puncturedSets { inner with owner }, ?_,
      serves.of_sound left soundAfter rfl rfl, rfl, ?_⟩
    · simp only [query, refused]
      rfl
    · rcases why with ⟨-, empty⟩ | isNotCovered | isExhausted
      · have stored := serves.stored
        rw [Array.isEmpty_iff_size_eq_zero.mp empty] at stored
        exact absurd stored (Nat.lt_irrefl 0)
      · exact Or.inl isNotCovered
      · exact Or.inr isExhausted
  · -- The number of the fresh set is beyond those of all stored sets.
    have apart : ∀ slot set, pending = .refresh slot set →
        ∀ (other : Nat) (stored : StoredSet), inner.stored[other]? = some stored →
          stored.handle.number = set.handle.number → other = slot := by
      intro slot set isRefresh other stored held number
      rw [replaces slot set isRefresh] at number
      have earlier := (sound.stored held).2.2.trans_le draws.number_ge
      exact absurd (congrArg UInt32.toNat number) (Nat.ne_of_lt earlier)
    obtain ⟨answers, isLeft, isRight, stored, owner', found, soundFound, size, -⟩ :=
      PuncturedClient.reconstruct_spec soundAfter answerable rfl apart
    have finds : (Client.puncturedSets { inner with owner, current }).Finds table row
        (.puncturedSets pending) (answers.map .puncturedSets) := by
      refine ⟨.puncturedSets { inner with owner := owner', current, stored }, ?_,
        serves.of_sound left soundFound rfl size, rfl⟩
      simp only [reconstruct, Sides.map, found]
      rfl
    refine Or.inl ⟨queries.map .puncturedSets, .puncturedSets pending,
      .puncturedSets { inner with owner, current }, later, answers.map .puncturedSets, ?_, same,
      serves.of_sound left soundAfter rfl rfl, rfl, answered_puncturedSets isLeft isRight, finds⟩
    simp only [query, asks]
    rfl

/-- A row that is queried is found in the answers, or the query is refused. Only the punctured
scheme refuses rows of the table, and only those that no stored set contains. -/
theorem query_cases (serves : client.Serves table) (left : client.HasNumbersLeft) {row : Nat}
    (inside : row < table.rowCount) (tape : Tape) :
    (∃ queries pending after later answers,
        client.query row tape = (.ok (queries, pending), after, later) ∧ later.word = tape.word ∧
        after.Serves table ∧ after.scheme = client.scheme ∧ Answered table queries answers ∧
        after.Finds table row pending answers) ∨
      ∃ failure after, client.query row tape = (.error failure, after, tape) ∧
        after.Serves table ∧ after.scheme = client.scheme ∧
        (client.scheme = .puncturedSets ∧ ¬ client.Covers row ∧ failure = .notCovered row ∨
          failure = .exhausted ∧ ¬ tape.Fair) := by
  have checked := check_of_lt inside
  cases client with
  | puncturedSets inner =>
      rcases query_cases_puncturedSets serves left row tape with
        found | ⟨failure, after, refused, servesAfter, scheme, why⟩
      · exact Or.inl found
      · refine Or.inr ⟨failure, after, refused, servesAfter, scheme, ?_⟩
        rcases why with ⟨isNotCovered, missed⟩ | isExhausted
        · exact Or.inl ⟨rfl, not_exists.mpr missed, isNotCovered⟩
        · exact Or.inr isExhausted
  | pointFunction shape =>
      obtain rfl : shape = table.shape := serves
      obtain ⟨word, left, right, isLeft, isRight, found⟩ := Table.sharesOf_spec inside tape
      have finds : (Client.pointFunction table.shape).Finds table row .pointFunction
          ⟨.pointFunction left, .pointFunction right⟩ := by
        refine ⟨.pointFunction table.shape, ?_, rfl, rfl⟩
        simp only [reconstruct, found]
        rfl
      refine Or.inl ⟨(table.shape.sharesOf row tape).1.map .pointFunction, .pointFunction,
        .pointFunction table.shape, (table.shape.sharesOf row tape).2, _, ?_, word, rfl, rfl,
        answered_pointFunction isLeft isRight, finds⟩
      simp only [query, checked]
  | matrix shape =>
      obtain rfl : shape = table.shape := serves
      obtain ⟨word, left, right, isLeft, isRight, found⟩ := Table.selectionsOf_spec inside tape
      have finds : (Client.matrix table.shape).Finds table row
          (.matrix (row % table.shape.grid.width)) ⟨.matrix left, .matrix right⟩ := by
        refine ⟨.matrix table.shape, ?_, rfl, rfl⟩
        simp only [reconstruct, found]
        rfl
      refine Or.inl ⟨(table.shape.selectionsOf row tape).1.map .matrix,
        .matrix (row % table.shape.grid.width), .matrix table.shape,
        (table.shape.selectionsOf row tape).2, _, ?_, word, rfl, rfl,
        answered_matrix isLeft isRight, finds⟩
      simp only [query, checked]
  | plain shape =>
      obtain rfl : shape = table.shape := serves
      have finds : (Client.plain table.shape).Finds table row .plain
          (.both (.plain (table.rowAt row))) :=
        ⟨.plain table.shape, if_pos (Table.length_rowAt inside), rfl, rfl⟩
      refine Or.inl ⟨.both (.plain row), .plain, .plain table.shape, tape, _, ?_, rfl, rfl, rfl,
        answered_plain inside, finds⟩
      simp only [query, checked]

/-- Every client can ask for some row. -/
theorem exists_covers (serves : client.Serves table) (left : client.HasNumbersLeft)
    (filled : 0 < table.rowCount) : ∃ row < table.rowCount, client.Covers row := by
  cases client with
  | puncturedSets inner =>
      have serves : inner.Serves table := serves
      obtain ⟨sound, -⟩ := serves.sound_of_hasNumbersLeft left
      obtain ⟨row, holds⟩ := sound.exists_holds serves.stored
      exact ⟨row, sound.lt_of_holds holds, 0, holds⟩
  | pointFunction shape => exact ⟨0, filled, trivial⟩
  | matrix shape => exact ⟨0, filled, trivial⟩
  | plain shape => exact ⟨0, filled, trivial⟩

/-- Queries for nothing are answered, or the tape is not fair. -/
theorem dummy_cases (serves : client.Serves table) (left : client.HasNumbersLeft)
    (filled : 0 < table.rowCount) (tape : Tape) :
    (∃ queries after later answers, client.dummy tape = (.ok queries, after, later) ∧
        later.word = tape.word ∧ after.Serves table ∧ after.scheme = client.scheme ∧
        Answered table queries answers) ∨
      ∃ after, client.dummy tape = (.error .exhausted, after, tape) ∧ after.Serves table ∧
        after.scheme = client.scheme ∧ ¬ tape.Fair := by
  cases client with
  | puncturedSets inner =>
      have serves : inner.Serves table := serves
      obtain ⟨sound, numbers⟩ := serves.sound_of_hasNumbersLeft left
      rcases PuncturedClient.dummy_cases sound numbers tape with ⟨failed, unfair⟩ |
        ⟨queries, fresh, current, later, asks, same, soundAfter, draws, ⟨leftAnswer, isLeft⟩,
          rightAnswer, isRight⟩
      · refine Or.inr ⟨.puncturedSets inner, ?_, serves, rfl, unfair⟩
        simp only [dummy, failed]
        rfl
      · refine Or.inl ⟨queries.map .puncturedSets, .puncturedSets { inner with current }, later,
          _, ?_, same, serves.of_sound left soundAfter rfl rfl, rfl,
          answered_puncturedSets isLeft isRight⟩
        simp only [dummy, asks]
        rfl
  | pointFunction shape =>
      obtain rfl : shape = table.shape := serves
      obtain ⟨word, left, right, isLeft, isRight, -⟩ := Table.sharesOf_spec filled tape
      exact Or.inl ⟨(table.shape.sharesOf 0 tape).1.map .pointFunction,
        .pointFunction table.shape, (table.shape.sharesOf 0 tape).2, _, rfl, word, rfl, rfl,
        answered_pointFunction isLeft isRight⟩
  | matrix shape =>
      obtain rfl : shape = table.shape := serves
      obtain ⟨word, left, right, isLeft, isRight, -⟩ := Table.selectionsOf_spec filled tape
      refine Or.inl ⟨(table.shape.selectionsOf 0 tape).1.map .matrix, .matrix table.shape,
        (table.shape.selectionsOf 0 tape).2, _, ?_, word, rfl, rfl,
        answered_matrix isLeft isRight⟩
      have hasRows : table.shape.rowCount ≠ 0 := Nat.ne_of_gt filled
      simp only [dummy, if_neg hasRows]
  | plain shape =>
      exact Or.inl ⟨.both (.plain 0), .plain shape, tape, _, rfl, rfl, serves, rfl,
        answered_plain filled⟩

/-- A client of a scheme that needs no hint serves the table whose shape it is given. -/
theorem serves_withoutHint {scheme : Scheme} (made : withoutHint scheme table.shape = .ok client) :
    client.Serves table ∧ client.scheme = scheme := by
  cases scheme with
  | puncturedSets => cases made
  | pointFunction =>
      cases made
      exact ⟨rfl, rfl⟩
  | matrix =>
      cases made
      exact ⟨rfl, rfl⟩
  | plain =>
      cases made
      exact ⟨rfl, rfl⟩

theorem sumsOver_withoutHint {scheme : Scheme}
    (made : withoutHint scheme table.shape = .ok client) : client.SumsOver table := by
  cases scheme with
  | puncturedSets => cases made
  | pointFunction =>
      cases made
      rfl
  | matrix =>
      cases made
      rfl
  | plain =>
      cases made
      rfl

section OfHint

variable {scheme : Scheme} {drawing tape later : Tape} {hint : Hint}

/-- The client of the punctured scheme that sums make. -/
theorem ofHint_puncturedSets (sums : SetSums) (tape : Tape) :
    ofHint (.puncturedSets sums) tape =
      (PuncturedClient.ofHint sums tape).map fun made => (.puncturedSets made.1, made.2) := by
  show Except.map _ (PuncturedClient.ofHint sums tape) = _
  cases PuncturedClient.ofHint sums tape with
  | error failure => rfl
  | ok made => rfl

/-- The hint of an honest server for a request that a client makes is that of sets, or it makes the
client that needs no hint. -/
theorem honestHint_cases (isHint : table.hint (HintRequest.fresh scheme drawing).1 = .ok hint) :
    (∃ seed sums, scheme = .puncturedSets ∧ table.setSums seed setMultiplier = .ok sums ∧
        hint = .puncturedSets sums) ∨
      ∃ client, withoutHint scheme table.shape = .ok client ∧ hint.shape = table.shape ∧
        ∀ tape, ofHint hint tape = .ok (client, tape) := by
  cases scheme with
  | puncturedSets =>
      simp only [HintRequest.fresh, Table.hint] at isHint
      cases isSums : table.setSums drawing.label.1 setMultiplier with
      | error failure =>
          rw [isSums] at isHint
          cases isHint
      | ok sums =>
          rw [isSums] at isHint
          cases isHint
          exact Or.inl ⟨_, sums, rfl, isSums, rfl⟩
  | pointFunction =>
      cases isHint
      exact Or.inr ⟨_, rfl, rfl, fun tape => rfl⟩
  | matrix =>
      cases isHint
      exact Or.inr ⟨_, rfl, rfl, fun tape => rfl⟩
  | plain =>
      cases isHint
      exact Or.inr ⟨_, rfl, rfl, fun tape => rfl⟩

/-- The hint of an honest server for a request that a client makes is of the shape of the table, and
it makes a client. -/
theorem exists_ofHint (isHint : table.hint (HintRequest.fresh scheme drawing).1 = .ok hint)
    (tape : Tape) :
    hint.shape = table.shape ∧ ∃ client later, ofHint hint tape = .ok (client, later) := by
  rcases honestHint_cases isHint with ⟨seed, sums, rfl, isSums, rfl⟩ | ⟨client, -, shape, made⟩
  · obtain ⟨-, -, -, -, -, -, shape, -⟩ := Table.of_setSums isSums
    obtain ⟨inner, later, made⟩ := PuncturedClient.exists_ofHint isSums tape
    refine ⟨shape, .puncturedSets inner, later, ?_⟩
    rw [ofHint_puncturedSets, made]
    rfl
  · exact ⟨shape, client, tape, made tape⟩

/-- What an honest hint makes is a client of the punctured scheme, from sums, or the client that
needs no hint. -/
theorem ofHint_cases (isHint : table.hint (HintRequest.fresh scheme drawing).1 = .ok hint)
    (made : ofHint hint tape = .ok (client, later)) :
    (∃ seed sums inner, scheme = .puncturedSets ∧
        table.setSums seed setMultiplier = .ok sums ∧
        PuncturedClient.ofHint sums tape = .ok (inner, later) ∧ client = .puncturedSets inner) ∨
      (withoutHint scheme table.shape = .ok client ∧ later = tape) := by
  rcases honestHint_cases isHint with ⟨seed, sums, rfl, isSums, rfl⟩ | ⟨other, ready, -, isOther⟩
  · rw [ofHint_puncturedSets] at made
    cases isInner : PuncturedClient.ofHint sums tape with
    | error failure =>
        rw [isInner] at made
        cases made
    | ok result =>
        rw [isInner] at made
        cases made
        exact Or.inl ⟨seed, sums, _, rfl, isSums, isInner, rfl⟩
  · rw [isOther] at made
    cases made
    exact Or.inr ⟨ready, rfl⟩

/-- The hint of an honest server for a request that a client makes is one of a client that
serves the table. -/
theorem serves_ofHint (few : table.rowCount ≤ 2 ^ 32)
    (isHint : table.hint (HintRequest.fresh scheme drawing).1 = .ok hint)
    (made : ofHint hint tape = .ok (client, later)) :
    client.Serves table ∧ client.scheme = scheme ∧ later.word = tape.word := by
  rcases ofHint_cases isHint made with
    ⟨seed, sums, inner, rfl, isSums, isInner, rfl⟩ | ⟨ready, rfl⟩
  · obtain ⟨serves, word⟩ :=
      PuncturedClient.serves_ofHint few isSums (setCount_pos_of_setSums isSums) isInner
    exact ⟨serves, rfl, word⟩
  · obtain ⟨serves, isScheme⟩ := serves_withoutHint ready
    exact ⟨serves, isScheme, rfl⟩

/-- The clients of a scheme, whether they are made of a hint or not, are clients of the scheme. -/
theorem scheme_ofHint (isHint : table.hint (HintRequest.fresh scheme drawing).1 = .ok hint)
    (made : ofHint hint tape = .ok (client, later)) : client.scheme = scheme := by
  rcases ofHint_cases isHint made with ⟨seed, sums, inner, rfl, -, -, rfl⟩ | ⟨ready, -⟩
  · rfl
  · exact (serves_withoutHint ready).2

/-- The hint of an honest server makes a client whose hints are sums of the table. -/
theorem sumsOver_ofHint (isHint : table.hint (HintRequest.fresh scheme drawing).1 = .ok hint)
    (made : ofHint hint tape = .ok (client, later)) : client.SumsOver table := by
  rcases ofHint_cases isHint made with
    ⟨seed, sums, inner, rfl, isSums, isInner, rfl⟩ | ⟨ready, -⟩
  · exact PuncturedClient.sumsOver_ofHint isSums (setCount_pos_of_setSums isSums) isInner
  · exact sumsOver_withoutHint ready

end OfHint

end Client

end PrivateRetrieval
