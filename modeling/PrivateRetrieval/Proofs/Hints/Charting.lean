/-
# What a client knows of its stored sets

A client notes for a row a slot whose set contains it. Putting a set into a slot takes notes away,
also those of rows that other sets still contain, and a search through the sets moves the notes of
the rows that it passes, whether it finds its row or not. So a note may be missing, and nothing says
which of several slots is noted. But no note is ever wrong, and where one is missing a search makes
up for it: whether a row is found depends on the stored sets alone.

A client is charted if its notes are true and its sets have their shape. This says nothing about
rows, so it holds in every course, whatever the servers answered.
-/

import PrivateRetrieval.Proofs.Hints.Exposure

namespace PrivateRetrieval

namespace PuncturedClient

variable {client after : PuncturedClient} {record : List Exchange} {drawn row slot : Nat}
  {tape later : Tape} {queries : Sides SetQuery} {pending : PendingSet}

/-! ## Why a query fails -/

theorem error_of_setAt {failure : Failure} (failed : client.setAt slot = .error failure) :
    ∃ what, failure = .breach what := by
  rw [setAt] at failed
  split at failed
  · cases failed
  · exact ⟨_, (Except.error.inj failed).symm⟩

theorem error_of_ask {part : QueryPart KeyedSet} {failure : Failure}
    (failed : client.ask part = .error failure) : ∃ what, failure = .breach what := by
  simp only [ask, SetGenerator.puncture, SetTree.puncture, bind, Except.bind] at failed
  split at failed
  · rename_i isError
    cases failed
    split at isError
    · exact ⟨_, (Except.error.inj isError).symm⟩
    split at isError
    · rename_i isCopath
      cases isError
      split at isCopath
      · cases isCopath
      · exact ⟨_, (Except.error.inj isCopath).symm⟩
    · cases isError
  · cases failed

/-- Queries for a row that was located fail because a search gave up, or because a condition was
not met. -/
theorem error_of_drawQuery {failure : Failure}
    (failed : client.drawQuery row slot tape = .error failure) :
    failure = .exhausted ∨ ∃ what, failure = .breach what := by
  rw [drawQuery] at failed
  rcases Drawing.of_bind_eq_error failed with failed | ⟨coin, _, -, failed⟩
  · exact Or.inl (Drawing.error_of_search failed)
  rcases Drawing.of_liftM_bind_eq_error failed with failed | ⟨⟨fresh, current⟩, -, failed⟩
  · exact Or.inl (SetGenerator.error_of_freshWith failed)
  rcases Drawing.of_liftM_bind_eq_error failed with failed | ⟨stored, -, failed⟩
  · exact Or.inr (error_of_setAt failed)
  rcases Drawing.of_bind_eq_error failed with failed | ⟨first, _, -, failed⟩
  · exact Or.inl (Drawing.error_of_search failed)
  rcases Drawing.of_bind_eq_error failed with failed | ⟨second, _, -, failed⟩
  · exact Or.inl (Drawing.error_of_search failed)
  rcases Drawing.of_liftM_bind_eq_error failed with failed | ⟨left, -, failed⟩
  · exact Or.inr (error_of_ask failed)
  rcases Drawing.of_liftM_bind_eq_error failed with failed | ⟨right, -, failed⟩
  · exact Or.inr (error_of_ask failed)
  cases failed

/-- A query is refused as not covered if and only if its row is not found. -/
theorem query_eq_notCovered_iff (filled : client.stored.isEmpty = false) (row : Nat)
    (tape : Tape) :
    (client.query row tape).1 = .error (.notCovered row) ↔ (client.locate row).1 = none := by
  rcases made : client.query row tape with ⟨result, after, later⟩
  cases queryEnds made with
  | noHint empty => exact absurd (filled.symm.trans empty) Bool.false_ne_true
  | notCovered _ located => exact iff_of_true rfl (located ▸ rfl)
  | @failed _ slot failure _ located failed =>
      refine iff_of_false (fun same => ?_) (located ▸ Option.some_ne_none slot)
      rcases error_of_drawQuery failed with rfl | ⟨what, rfl⟩
      · cases same
      · cases same
  | @drawn _ slot _ _ _ _ located _ =>
      exact iff_of_false (fun same => nomatch same) (located ▸ Option.some_ne_none slot)

/-- A query leaves the notes as they are, or as looking for its row does. -/
theorem owner_query (client : PuncturedClient) (row : Nat) (tape : Tape) :
    (client.query row tape).2.1.owner = client.owner ∨
      (client.query row tape).2.1.owner = (client.locate row).2.owner := by
  rcases made : client.query row tape with ⟨result, after, later⟩
  cases queryEnds made with
  | noHint => exact Or.inl rfl
  | notCovered _ located => exact Or.inr (located ▸ rfl)
  | failed _ located _ => exact Or.inr (located ▸ rfl)
  | drawn _ located _ => exact Or.inr (located ▸ rfl)

theorem owner_dummy (client : PuncturedClient) (tape : Tape) :
    (client.dummy tape).2.1.owner = client.owner := by
  rw [dummy]
  split
  · rfl
  · rfl

/-! ## Charted clients -/

/-- Which rows the slots hold depends on the stored sets, the keys and the tree. -/
theorem holds_congr (stored : after.stored = client.stored) (hinted : after.hinted = client.hinted)
    (tree : after.current.tree = client.current.tree)
    (cipher : after.current.cipher = client.current.cipher) :
    after.Holds slot row ↔ client.Holds slot row := by
  simp only [Holds, stored, rebuild_congr hinted tree cipher]

/-- Queries leave the stored sets, the keys and the tree as they are. -/
theorem Asks.unchanged {pending : Option PendingSet}
    (asks : client.Asks row queries pending after) :
    after.rowLength = client.rowLength ∧ after.stored = client.stored ∧
      after.hinted = client.hinted ∧ after.current.tree = client.current.tree ∧
      after.current.cipher = client.current.cipher := by
  cases asks with
  | fresh isFresh =>
      obtain ⟨tree, cipher, -⟩ := SetGenerator.of_freshWith isFresh
      exact ⟨rfl, rfl, rfl, tree, cipher⟩
  | refresh isFresh =>
      obtain ⟨tree, cipher, -⟩ := SetGenerator.of_freshWith isFresh
      exact ⟨rfl, rfl, rfl, tree, cipher⟩

/-- The notes of a client are true, its sets have the shape that its generators give them, and its
hints are as long as rows. -/
structure Charted (client : PuncturedClient) : Prop where
  sameTree : client.current.tree = client.hinted.tree
  standard : client.hinted.tree.children = Label.children
  twoElements : 2 ≤ client.setSize
  ownerSize : client.owner.size = client.rowCount
  notes : client.Notes client.owner
  distinct : ∀ set ∈ client.stored.toList, (client.rebuild set.handle).elements.Nodup
  hintLength : ∀ set ∈ client.stored.toList, set.hint.length = client.rowLength

/-- If a query waits for answers that will replace a set, the client can rebuild the replacement. -/
def Awaits (client : PuncturedClient) (pending : PendingSet) : Prop :=
  ∀ slot set, pending = .refresh slot set →
    client.rebuild set.handle = set ∧ set.elements.Nodup

theorem Awaits.congr (awaits : client.Awaits pending) (hinted : after.hinted = client.hinted)
    (tree : after.current.tree = client.current.tree)
    (cipher : after.current.cipher = client.current.cipher) : after.Awaits pending := by
  intro slot set isRefresh
  rw [rebuild_congr hinted tree cipher]
  exact awaits slot set isRefresh

/-- What queries wait to store is a set that the client can rebuild. -/
theorem Asks.awaits (inOrder : client.hinted.nextNumber.toNat ≤ client.current.nextNumber.toNat)
    (numbers : client.current.HasNumbersLeft)
    (asks : client.Asks row queries (some pending) after) : after.Awaits pending := by
  intro place replacement isRefresh
  cases isRefresh
  cases asks with
  | fresh _ noSlot => cases noSlot
  | refresh isFresh =>
      have draws := SetGenerator.draws_of_freshWith numbers isFresh
      refine ⟨rebuild_of_owns ?_ (inOrder.trans draws.number_ge), draws.distinct⟩
      exact (SetGenerator.owns_congr draws.tree draws.cipher).mpr draws.owns

namespace Charted

theorem lt_of_mem_rebuild (charted : client.Charted) (handle : SetHandle) {element : Nat}
    (member : element ∈ (client.rebuild handle).elements) : element < client.rowCount := by
  have inside := (SetGenerator.owns_rebuild (client.generatorOf handle) handle).lt_domain member
  have tree : (client.generatorOf handle).tree = client.hinted.tree := by
    rw [generatorOf]
    split
    · rfl
    · exact charted.sameTree
  rwa [tree] at inside

theorem lt_of_holds (charted : client.Charted) (holds : client.Holds slot row) :
    row < client.rowCount := by
  obtain ⟨set, -, member⟩ := holds
  exact charted.lt_of_mem_rebuild set.handle member

/-- Looking for a row finds a slot with it if there is one, and the notes stay true. -/
theorem locate_cases (charted : client.Charted) (row : Nat) :
    ((client.locate row).1 = none ↔ ∀ slot, ¬ client.Holds slot row) ∧
      (client.locate row).2.owner.size = client.rowCount ∧
      client.Notes (client.locate row).2.owner := by
  obtain ⟨size, notes, found, missed⟩ := locate_of_notes charted.notes
    (fun slot row holds => charted.ownerSize.symm ▸ charted.lt_of_holds holds) row
  refine ⟨⟨missed, fun absent => ?_⟩, size.trans charted.ownerSize, notes⟩
  cases isFound : (client.locate row).1 with
  | none => rfl
  | some slot => exact absurd (found slot isFound) (absent slot)

/-- A query is refused as not covered if and only if no stored set contains its row. -/
theorem refused_iff (charted : client.Charted) (filled : client.stored.isEmpty = false)
    (row : Nat) (tape : Tape) :
    (client.query row tape).1 = .error (.notCovered row) ↔ ∀ slot, ¬ client.Holds slot row :=
  (query_eq_notCovered_iff filled row tape).trans (charted.locate_cases row).1

/-- The notes after a query are true. -/
theorem notes_query (charted : client.Charted) (row : Nat) (tape : Tape) :
    (client.query row tape).2.1.owner.size = client.rowCount ∧
      client.Notes (client.query row tape).2.1.owner := by
  rcases owner_query client row tape with same | same
  · rw [same]
    exact ⟨charted.ownerSize, charted.notes⟩
  · rw [same]
    exact (charted.locate_cases row).2

/-- Queries leave a client charted. -/
theorem asks (charted : client.Charted) {pending : Option PendingSet}
    (asks : client.Asks row queries pending after) (size : after.owner.size = client.rowCount)
    (notes : client.Notes after.owner) : after.Charted := by
  obtain ⟨rowLength, stored, hinted, tree, cipher⟩ := asks.unchanged
  have rebuilt := rebuild_congr hinted tree cipher
  have rows : after.rowCount = client.rowCount := by rw [rowCount, hinted, rowCount]
  refine ⟨?_, ?_, ?_, ?_, ?_, ?_, ?_⟩
  · rw [tree, hinted]
    exact charted.sameTree
  · rw [hinted]
    exact charted.standard
  · rw [setSize, hinted]
    exact charted.twoElements
  · rw [size, rows]
  · exact fun row slot noted =>
      (holds_congr stored hinted tree cipher).mpr (notes row slot noted)
  · intro set member
    rw [rebuilt]
    exact charted.distinct set (stored ▸ member)
  · intro set member
    rw [rowLength]
    exact charted.hintLength set (stored ▸ member)

/-- Other notes that are true leave a client charted. -/
theorem withOwner (charted : client.Charted) {owner : Array (Option Nat)}
    (size : owner.size = client.rowCount) (notes : client.Notes owner) :
    Charted { client with owner } :=
  { charted with ownerSize := size, notes := notes }

/-- Answers leave a client charted, even if they are wrong. -/
theorem answer (charted : client.Charted) (awaits : client.Awaits pending)
    {answers : Sides SetAnswer} {found : Row}
    (made : client.reconstruct pending answers = .ok (found, after)) : after.Charted := by
  cases pending with
  | refresh slot set =>
      obtain ⟨rebuilt, distinct⟩ := awaits slot set rfl
      obtain ⟨used, hint, held, length, rfl⟩ := of_reconstruct_refresh made
      exact
        { charted with
          ownerSize := by rw [size_own, size_disown, charted.ownerSize]; rfl
          notes := charted.notes.replace held (congrArg KeyedSet.elements rebuilt) _
          distinct := forall_setIfInBounds
            (show (client.rebuild set.handle).elements.Nodup from rebuilt.symm ▸ distinct)
            charted.distinct
          hintLength := forall_setIfInBounds length charted.hintLength }
  | extraRight =>
      obtain rfl := of_reconstruct_extra rfl made
      exact charted
  | extraLeft =>
      obtain rfl := of_reconstruct_extra rfl made
      exact charted

end Charted

/-- A client of an honest hint is charted, before any queries. -/
theorem StoresDrawn.charted {table : Table} {generator : SetGenerator} {sets : List KeyedSet}
    (stores : client.StoresDrawn table generator sets) : client.Charted where
  sameTree := stores.sameTree.trans stores.drawn.tree.symm
  standard := stores.drawn.tree ▸ stores.standard
  twoElements := stores.two_le_setSize
  ownerSize := by rw [stores.size_owner, rowCount, stores.drawn.tree, stores.domain]
  notes := stores.notes
  distinct := stores.distinct
  hintLength := by
    refine stores.forall_stored ?_
    intro set member
    rw [stores.rowLength]
    apply Table.length_sumAt
    intro element inSet
    exact stores.domain ▸ (stores.drawn.owns set member).lt_domain inSet

/-- Numbers are drawn in order, and there are some left. -/
theorem Course.hasNumbersLeft (course : Course client record drawn)
    (left : drawn + client.current.draws < 2 ^ 32) :
    client.hinted.nextNumber.toNat ≤ client.current.nextNumber.toNat ∧
      client.current.HasNumbersLeft := by
  obtain ⟨held, start, -, accounts⟩ := course.accounts (by omega)
  rw [SetGenerator.HasNumbersLeft, accounts.start_eq, accounts.drawn_eq]
  exact ⟨accounts.tracked.start_le, left⟩

/-- In every course the client is charted, and it can rebuild every set that waits to be stored, as
long as the numbers do not run out. -/
theorem Course.charted (course : Course client record drawn) (left : drawn < 2 ^ 32) :
    client.Charted ∧ ∀ shown, .asked shown ∈ record → ∀ pending, shown.pending = some pending →
      client.Awaits pending := by
  induction course with
  | start isHint made =>
      obtain ⟨generator, sets, stores, -⟩ := exists_storesDrawn isHint left made
      exact ⟨stores.charted, fun shown member => nomatch member⟩
  | @query client _ record _ row tape _ _ _ course made ih =>
      obtain ⟨charted, awaits⟩ := ih (by omega)
      obtain ⟨inOrder, numbers⟩ := course.hasNumbersLeft left
      have asks := asks_of_query made
      obtain ⟨-, -, hinted, tree, cipher⟩ := asks.unchanged
      obtain ⟨size, notes⟩ := charted.notes_query row tape
      rw [made] at size notes
      refine ⟨charted.asks asks size notes, fun shown member waiting isWaiting => ?_⟩
      rcases List.mem_cons.mp member with same | inRecord
      · cases same
        cases isWaiting
        exact asks.awaits inOrder numbers
      · exact (awaits shown inRecord waiting isWaiting).congr hinted tree cipher
  | @refused client _ _ _ row tape _ _ course made ih =>
      obtain ⟨charted, awaits⟩ := ih left
      obtain ⟨size, notes⟩ := charted.notes_query row tape
      rw [made] at size notes
      obtain ⟨owner, rfl⟩ := exists_owner_of_refused made
      exact ⟨charted.withOwner size notes, awaits⟩
  | @dummy client _ _ _ tape _ _ course made ih =>
      obtain ⟨charted, awaits⟩ := ih (by omega)
      have asks := asks_of_dummy made
      obtain ⟨-, -, hinted, tree, cipher⟩ := asks.unchanged
      have same := owner_dummy client tape
      rw [made] at same
      refine ⟨charted.asks asks (same ▸ charted.ownerSize) (same ▸ charted.notes),
        fun shown member waiting isWaiting => ?_⟩
      rcases List.mem_cons.mp member with same | inRecord
      · cases same
        cases isWaiting
      · exact (awaits shown inRecord waiting isWaiting).congr hinted tree cipher
  | answer course member isPending made ih =>
      obtain ⟨charted, awaits⟩ := ih left
      obtain ⟨hinted, current, -⟩ := of_reconstruct made
      refine ⟨charted.answer (awaits _ member _ isPending) made,
        fun shown inRecord waiting isWaiting => ?_⟩
      rcases List.mem_cons.mp inRecord with same | inBefore
      · cases same
      · exact (awaits shown inBefore waiting isWaiting).congr hinted (congrArg _ current)
          (congrArg _ current)

end PuncturedClient

end PrivateRetrieval
