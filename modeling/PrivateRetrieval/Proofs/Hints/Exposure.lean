/-
# What a client shows its servers

Two puncturings of one set tell a server both missing members, so no server should be shown a set
twice. Here a client is made of an honest hint and then makes any queries, for rows and for
nothing, and is given any answers to them, in any order, late, more than once, or not at all. Its
course is kept as a record of what it showed each server and of what it put into its slots.

The left server is shown each set once, in every course. The right server is shown the set in a slot
until the answers to a refresh replace it. A client that asks again before they arrive, or after
they failed to arrive, may refresh the same slot, and then shows the right server the same set
twice. If every refresh is completed before its slot is refreshed again, and completed once, the
right server is shown each set once too.
-/

import PrivateRetrieval.Proofs.Hints.Record
import PrivateRetrieval.Proofs.Hints.Runs

namespace PrivateRetrieval

namespace PuncturedClient

/-- The handle of the set that is drawn for a row. -/
def drawnFor (client : PuncturedClient) (row : Nat) : Option SetHandle :=
  match client.current.freshWith row with
  | .ok (fresh, _) => some fresh.handle
  | .error _ => none

/-- What queries show the servers: a set that is drawn for a row, and in a refresh the right
server the set in a slot. -/
def exposure (client : PuncturedClient) (row : Nat) (queries : Sides SetQuery)
    (pending : Option PendingSet) : Exposure where
  queries := queries
  sets := ⟨client.drawnFor row,
    match pending.bind PendingSet.slot? with
    | some slot => client.handleAt slot
    | none => client.drawnFor row⟩
  pending := pending

/-- A query that asks a server for a set without one of its members. -/
def Punctures (client : PuncturedClient) (set : KeyedSet) (query : SetQuery) : Prop :=
  ∃ part, part.set = set ∧ client.ask part = .ok query

/-- Queries that ask the servers for the recorded sets, without a member each. -/
def Shows (client : PuncturedClient) (shown : Exposure) : Prop :=
  ∃ left right, shown.sets = ⟨some left, some right⟩ ∧
    client.Punctures (client.rebuild left) shown.queries.left ∧
    client.Punctures (client.rebuild right) shown.queries.right

/-- The clients that queries and answers lead to, together with the record of them and with how
many numbers of sets were drawn. Every call has a tape of its own. Answers need not be those of
honest servers, but a client only completes queries that it made. -/
inductive Course : PuncturedClient → List Exchange → Nat → Prop
  | start {table : Table} {seed : Label} {multiplier : Nat} {sums : SetSums} {tape later : Tape}
      {client : PuncturedClient} :
      table.setSums seed multiplier = .ok sums → ofHint sums tape = .ok (client, later) →
      Course client [] sums.draws
  | query {client after : PuncturedClient} {record : List Exchange} {drawn row : Nat}
      {tape later : Tape} {queries : Sides SetQuery} {pending : PendingSet} :
      Course client record drawn → client.query row tape = (.ok (queries, pending), after, later) →
      Course after (.asked (client.exposure row queries (some pending)) :: record)
        (drawn + client.current.draws)
  | refused {client after : PuncturedClient} {record : List Exchange} {drawn row : Nat}
      {tape later : Tape} {failure : Failure} :
      Course client record drawn → client.query row tape = (.error failure, after, later) →
      Course after record drawn
  | dummy {client after : PuncturedClient} {record : List Exchange} {drawn : Nat}
      {tape later : Tape} {queries : Sides SetQuery} :
      Course client record drawn → client.dummy tape = (.ok queries, after, later) →
      Course after (.asked (client.exposure 0 queries none) :: record)
        (drawn + client.current.draws)
  | answer {client after : PuncturedClient} {record : List Exchange} {drawn : Nat}
      {shown : Exposure} {pending : PendingSet} {answers : Sides SetAnswer} {row : Row} :
      Course client record drawn → .asked shown ∈ record → shown.pending = some pending →
      client.reconstruct pending answers = .ok (row, after) →
      Course after (.answered pending :: record) drawn

/-- How queries come about: both servers get the drawn set, or the right one gets the set in a
slot, and the drawn set waits to take its place. -/
inductive Asks (client : PuncturedClient) (row : Nat) (queries : Sides SetQuery) :
    Option PendingSet → PuncturedClient → Prop
  | fresh {set : KeyedSet} {current : SetGenerator} {owner : Array (Option Nat)}
      {pending : Option PendingSet} :
      client.current.freshWith row = .ok (set, current) → pending.bind PendingSet.slot? = none →
      client.Punctures set queries.left → client.Punctures set queries.right →
      Asks client row queries pending { client with owner, current }
  | refresh {slot : Nat} {set : KeyedSet} {used : StoredSet} {current : SetGenerator}
      {owner : Array (Option Nat)} :
      client.current.freshWith row = .ok (set, current) → client.stored[slot]? = some used →
      client.Punctures set queries.left →
      client.Punctures (client.rebuild used.handle) queries.right →
      Asks client row queries (some (.refresh slot set)) { client with owner, current }

variable {client after : PuncturedClient} {record : List Exchange} {drawn row slot : Nat}
  {tape later : Tape} {queries : Sides SetQuery} {pending : PendingSet}

/-- What was drawn, if queries for a row were. -/
theorem of_drawQuery {current : SetGenerator}
    (isDrawn : client.drawQuery row slot tape = .ok (((queries, pending), current), later)) :
    ∃ coin afterCoin case fresh stored first second,
      Drawing.below client.rowCount tape = .ok (coin, afterCoin) ∧
      QueryCase.ofCoin client.setSize coin = case ∧
      client.current.freshWith row = .ok (fresh, current) ∧ client.setAt slot = .ok stored ∧
      pending = pendingOf case slot fresh ∧
      client.ask (case.parts row fresh stored first second).left = .ok queries.left ∧
      client.ask (case.parts row fresh stored first second).right = .ok queries.right ∧
      first ∈ fresh.elements ∧
      second ∈ (case.secondSource row fresh stored first).1.elements := by
  rw [drawQuery] at isDrawn
  obtain ⟨coin, afterCoin, isCoin, drawFresh⟩ := Drawing.of_bind_eq_ok isDrawn
  obtain ⟨⟨fresh, _⟩, isFresh, drawStored⟩ := Drawing.of_liftM_bind_eq_ok drawFresh
  obtain ⟨stored, isStored, drawFirst⟩ := Drawing.of_liftM_bind_eq_ok drawStored
  obtain ⟨first, _, isFirst, drawSecond⟩ := Drawing.of_bind_eq_ok drawFirst
  obtain ⟨second, _, isSecond, askLeft⟩ := Drawing.of_bind_eq_ok drawSecond
  obtain ⟨left, isLeft, askRight⟩ := Drawing.of_liftM_bind_eq_ok askLeft
  obtain ⟨right, isRight, last⟩ := Drawing.of_liftM_bind_eq_ok askRight
  cases last
  exact ⟨coin, afterCoin, _, fresh, stored, first, second, isCoin, rfl, isFresh, isStored, rfl,
    isLeft, isRight, (Drawing.of_memberExcept isFirst).2.1, (Drawing.of_memberExcept isSecond).2.1⟩

theorem of_setAt {set : KeyedSet} (isSet : client.setAt slot = .ok set) :
    ∃ stored, client.stored[slot]? = some stored ∧ set = client.rebuild stored.handle := by
  rw [setAt] at isSet
  split at isSet
  · rename_i stored held
    cases isSet
    exact ⟨stored, held, rfl⟩
  · cases isSet

theorem asks_of_drawQuery {current : SetGenerator}
    (isDrawn : client.drawQuery row slot tape = .ok (((queries, pending), current), later)) :
    client.Asks row queries (some pending) { client with current } := by
  obtain ⟨_, _, case, fresh, set, first, second, -, -, isFresh, isSet, rfl, isLeft, isRight, -⟩ :=
    of_drawQuery isDrawn
  obtain ⟨stored, held, rfl⟩ := of_setAt isSet
  cases case with
  | refresh => exact .refresh isFresh held ⟨_, rfl, isLeft⟩ ⟨_, rfl, isRight⟩
  | extraRight => exact .fresh isFresh rfl ⟨_, rfl, isLeft⟩ ⟨_, rfl, isRight⟩
  | extraLeft => exact .fresh isFresh rfl ⟨_, rfl, isLeft⟩ ⟨_, rfl, isRight⟩

/-- What a client that draws for a located row does, it does without the notes. -/
theorem Asks.of_owner {owner : Array (Option Nat)} {pending : Option PendingSet}
    (asks : Asks { client with owner } row queries pending after) :
    client.Asks row queries pending after := by
  cases asks with
  | fresh isFresh noSlot left right => exact .fresh isFresh noSlot left right
  | refresh isFresh held left right => exact .refresh isFresh held left right

theorem asks_of_query (made : client.query row tape = (.ok (queries, pending), after, later)) :
    client.Asks row queries (some pending) after := by
  obtain ⟨owner, slot, current, rfl, isDrawn⟩ := of_query made
  exact (asks_of_drawQuery isDrawn).of_owner

theorem asks_of_dummy (made : client.dummy tape = (.ok queries, after, later)) :
    client.Asks 0 queries none after := by
  rw [dummy] at made
  split at made
  · rename_i isDrawn
    rw [drawDummy] at isDrawn
    obtain ⟨⟨fresh, _⟩, isFresh, drawExtra⟩ := Drawing.of_liftM_bind_eq_ok isDrawn
    obtain ⟨extra, _, -, askBoth⟩ := Drawing.of_bind_eq_ok drawExtra
    obtain ⟨query, isQuery, last⟩ := Drawing.of_liftM_bind_eq_ok askBoth
    cases last
    cases made
    exact .fresh isFresh rfl ⟨_, rfl, isQuery⟩ ⟨_, rfl, isQuery⟩
  · cases made

theorem of_replace {set : KeyedSet} {hint : Row}
    (replaced : client.replace slot set hint = .ok after) :
    ∃ used, client.stored[slot]? = some used ∧ after = { client with
      stored := client.stored.setIfInBounds slot ⟨set.handle, hint⟩
      owner := own (disown client.owner slot (client.rebuild used.handle).elements) slot
        set.elements } := by
  rw [replace] at replaced
  cases isOld : client.setAt slot with
  | error failure =>
      rw [isOld] at replaced
      cases replaced
  | ok old =>
      obtain ⟨used, held, rfl⟩ := of_setAt isOld
      rw [isOld] at replaced
      simp only [bind, Except.bind] at replaced
      split at replaced
      · cases replaced
        exact ⟨used, held, rfl⟩
      · cases replaced

/-- The answers to a refresh put the set that was drawn for it into its slot, with a hint of the
length of a row. -/
theorem of_reconstruct_refresh {set : KeyedSet} {answers : Sides SetAnswer} {found : Row}
    (made : client.reconstruct (.refresh slot set) answers = .ok (found, after)) :
    ∃ used hint, client.stored[slot]? = some used ∧ hint.length = client.rowLength ∧
      after = { client with
        stored := client.stored.setIfInBounds slot ⟨set.handle, hint⟩
        owner := own (disown client.owner slot (client.rebuild used.handle).elements) slot
          set.elements } := by
  simp only [reconstruct, bind, Except.bind, pure, Except.pure] at made
  split at made
  · cases made
  rename_i accepted
  split at made
  · rename_i held
    split at made
    · cases made
    rename_i row isRow
    split at made
    · cases made
    rename_i replaced
    cases made
    obtain ⟨used, isUsed, rfl⟩ := of_replace replaced
    have accepted : client.accepts answers.left = true ∧ client.accepts answers.right = true := by
      simpa using accepted
    have leftFits : answers.left.sum.length = client.rowLength :=
      eq_of_beq (Bool.and_eq_true_iff.mp accepted.1).1
    have rightFits : answers.right.sum.length = client.rowLength :=
      eq_of_beq (Bool.and_eq_true_iff.mp accepted.2).1
    refine ⟨used, _, isUsed, Row.length_xor_of leftFits ?_, rfl⟩
    rw [Row.xor?] at isRow
    split at isRow
    · rename_i same
      rw [← Except.ok.inj isRow]
      exact Row.length_xor_of (same.trans rightFits) rightFits
    · cases isRow
  · cases made

/-- Other answers leave the client as it is. -/
theorem of_reconstruct_extra (noSlot : pending.slot? = none) {answers : Sides SetAnswer}
    {found : Row} (made : client.reconstruct pending answers = .ok (found, after)) :
    after = client := by
  simp only [reconstruct, bind, Except.bind] at made
  split at made
  · cases made
  cases pending with
  | refresh slot replacement => cases noSlot
  | extraRight =>
      cases made
      rfl
  | extraLeft =>
      cases made
      rfl

/-- The answers to a refresh put the set that was drawn for it into its slot. Other answers leave
the slots as they are. -/
theorem of_reconstruct {answers : Sides SetAnswer} {found : Row}
    (made : client.reconstruct pending answers = .ok (found, after)) :
    after.hinted = client.hinted ∧ after.current = client.current ∧
      ∀ slot, after.handleAt slot =
        (Exchange.put? slot (.answered pending)).or (client.handleAt slot) := by
  cases pending with
  | refresh slot replacement =>
      obtain ⟨used, hint, held, -, rfl⟩ := of_reconstruct_refresh made
      obtain ⟨inside, -⟩ := Array.getElem?_eq_some_iff.mp held
      refine ⟨rfl, rfl, fun other => ?_⟩
      rw [handleAt, handleAt, Array.getElem?_setIfInBounds, Exchange.put?]
      by_cases same : slot = other
      · rw [if_pos same, if_pos inside, if_pos same]
        rfl
      · rw [if_neg same, if_neg same, Option.none_or]
  | extraRight =>
      obtain rfl := of_reconstruct_extra rfl made
      exact ⟨rfl, rfl, fun slot => rfl⟩
  | extraLeft =>
      obtain rfl := of_reconstruct_extra rfl made
      exact ⟨rfl, rfl, fun slot => rfl⟩

/-- What is asked for depends on the tree alone. -/
theorem Punctures.congr (tree : after.current.tree = client.current.tree) {set : KeyedSet}
    {query : SetQuery} (punctures : client.Punctures set query) : after.Punctures set query := by
  obtain ⟨part, isPart, asks⟩ := punctures
  refine ⟨part, isPart, ?_⟩
  rw [← asks, ask, ask, SetGenerator.puncture, SetGenerator.puncture, tree]

/-- A client with the same keys shows the same sets. -/
theorem Shows.congr {shown : Exposure} (shows : client.Shows shown)
    (hinted : after.hinted = client.hinted) (tree : after.current.tree = client.current.tree)
    (cipher : after.current.cipher = client.current.cipher) : after.Shows shown := by
  obtain ⟨left, right, sets, isLeft, isRight⟩ := shows
  refine ⟨left, right, sets, ?_, ?_⟩
  · rw [rebuild_congr hinted tree cipher]
    exact isLeft.congr tree
  · rw [rebuild_congr hinted tree cipher]
    exact isRight.congr tree

/-- What holds of a client and its record in every course. -/
structure Accounts (client : PuncturedClient) (held : Nat → Option SetHandle) (start : Nat)
    (record : List Exchange) (drawn : Nat) : Prop where
  tracked : Tracked held start record drawn
  start_eq : client.hinted.nextNumber.toNat = start
  drawn_eq : client.current.nextNumber.toNat = drawn
  handleAt : ∀ slot, client.handleAt slot = contents held record slot
  shows : ∀ shown, .asked shown ∈ record → client.Shows shown

namespace Accounts

variable {held : Nat → Option SetHandle} {start : Nat}

/-- Queries move the later generator on, and leave the slots as they are. -/
theorem asked (accounts : client.Accounts held start record drawn) {set : KeyedSet}
    {current : SetGenerator} (draws : client.current.Draws set current)
    (owner : Array (Option Nat)) {shown : Exposure}
    (tracked : Tracked held start (.asked shown :: record) (drawn + client.current.draws))
    (shows : client.Shows shown) :
    Accounts { client with owner, current } held start (.asked shown :: record)
      (drawn + client.current.draws) where
  tracked := tracked
  start_eq := accounts.start_eq
  drawn_eq := accounts.drawn_eq ▸ draws.nextNumber
  handleAt := accounts.handleAt
  shows := by
    intro other member
    rcases List.mem_cons.mp member with same | inRecord
    · cases same
      exact shows.congr rfl draws.tree draws.cipher
    · exact (accounts.shows other inRecord).congr rfl draws.tree draws.cipher

theorem asks (accounts : client.Accounts held start record drawn)
    (left : drawn + client.current.draws < 2 ^ 32) {pending : Option PendingSet}
    (asks : client.Asks row queries pending after) :
    after.Accounts held start (.asked (client.exposure row queries pending) :: record)
      (drawn + client.current.draws) := by
  have numbers : client.current.HasNumbersLeft := by
    rw [SetGenerator.HasNumbersLeft, accounts.drawn_eq]
    exact left
  have freshOf : ∀ {set : KeyedSet} {current : SetGenerator},
      client.current.freshWith row = .ok (set, current) →
      client.current.Draws set current ∧ client.drawnFor row = some set.handle ∧
        client.rebuild set.handle = set ∧ drawn ≤ set.handle.number.toNat ∧
        set.handle.number.toNat < drawn + client.current.draws := by
    intro set current isFresh
    have draws := SetGenerator.draws_of_freshWith numbers isFresh
    have ge := draws.number_ge
    have lt := draws.number_lt
    rw [accounts.drawn_eq] at ge
    rw [draws.nextNumber, accounts.drawn_eq] at lt
    refine ⟨draws, by rw [drawnFor, isFresh], rebuild_of_owns draws.owns ?_, ge, lt⟩
    rw [accounts.start_eq]
    exact accounts.tracked.start_le.trans ge
  cases asks with
  | @fresh set current owner _ isFresh noSlot isLeft isRight =>
      obtain ⟨draws, isDrawn, rebuilt, ge, lt⟩ := freshOf isFresh
      have sets : (client.exposure row queries pending).sets = .both (some set.handle) := by
        rw [exposure, noSlot, isDrawn]
        rfl
      refine accounts.asked draws owner (.fresh accounts.tracked ge lt sets noSlot)
        ⟨set.handle, set.handle, sets, ?_, ?_⟩
      · rw [rebuilt]
        exact isLeft
      · rw [rebuilt]
        exact isRight
  | @refresh slot set used current owner isFresh isHeld isLeft isRight =>
      obtain ⟨draws, isDrawn, rebuilt, ge, lt⟩ := freshOf isFresh
      have isThere : client.handleAt slot = some used.handle := by
        rw [PuncturedClient.handleAt, isHeld, Option.map_some]
      have sets : (client.exposure row queries (some (.refresh slot set))).sets =
          ⟨some set.handle, some used.handle⟩ := by
        rw [← isDrawn, ← isThere]
        rfl
      have wasThere : contents held record slot = some used.handle :=
        (accounts.handleAt slot).symm.trans isThere
      refine accounts.asked draws owner (.refresh accounts.tracked ge lt wasThere sets rfl)
        ⟨set.handle, used.handle, sets, ?_, isRight⟩
      rw [rebuilt]
      exact isLeft

theorem refused (accounts : client.Accounts held start record drawn) (owner : Array (Option Nat)) :
    Accounts { client with owner } held start record drawn where
  tracked := accounts.tracked
  start_eq := accounts.start_eq
  drawn_eq := accounts.drawn_eq
  handleAt := accounts.handleAt
  shows := fun shown member => (accounts.shows shown member).congr rfl rfl rfl

theorem answer (accounts : client.Accounts held start record drawn) {shown : Exposure}
    (member : .asked shown ∈ record) (isPending : shown.pending = some pending)
    {answers : Sides SetAnswer} {found : Row}
    (made : client.reconstruct pending answers = .ok (found, after)) :
    after.Accounts held start (.answered pending :: record) drawn := by
  obtain ⟨hinted, current, slots⟩ := of_reconstruct made
  exact
    { tracked := .answered accounts.tracked member isPending
      start_eq := hinted ▸ accounts.start_eq
      drawn_eq := current ▸ accounts.drawn_eq
      handleAt := by
        intro slot
        rw [slots, contents_answered, accounts.handleAt]
      shows := by
        intro other inRecord
        have inBefore : .asked other ∈ record := by
          rcases List.mem_cons.mp inRecord with same | before
          · cases same
          · exact before
        exact (accounts.shows other inBefore).congr hinted (congrArg _ current)
          (congrArg _ current) }

end Accounts

/-- What a client of an honest hint stores, before any queries. -/
theorem accounts_ofHint {table : Table} {seed : Label} {multiplier : Nat} {sums : SetSums}
    (isHint : table.setSums seed multiplier = .ok sums) (left : sums.draws < 2 ^ 32)
    (made : ofHint sums tape = .ok (client, later)) :
    Stocked client.handleAt sums.draws ∧
      client.Accounts client.handleAt sums.draws [] sums.draws := by
  obtain ⟨generator, sets, stores, draws⟩ := exists_storesDrawn isHint left made
  have hinted : client.hinted.nextNumber.toNat = sums.draws :=
    stores.drawn.nextNumber.trans draws
  refine ⟨⟨?_, ?_⟩, .start, hinted, by rw [stores.nextNumber, hinted], fun _ => rfl, by simp⟩
  · intro slot handle isThere
    obtain ⟨stored, held, rfl⟩ := Option.map_eq_some_iff.mp isThere
    obtain ⟨set, isSet, rfl⟩ := stores.getElem?_stored.mp held
    rw [← hinted]
    exact stores.drawn.number_lt set (List.mem_of_getElem? isSet)
  · intro first second handle other isFirst isSecond same
    obtain ⟨stored, heldFirst, rfl⟩ := Option.map_eq_some_iff.mp isFirst
    obtain ⟨storedOther, heldSecond, rfl⟩ := Option.map_eq_some_iff.mp isSecond
    exact stores.apart heldFirst heldSecond same

/-- What holds in every course, as long as the numbers do not run out. -/
theorem Course.accounts (course : Course client record drawn) (left : drawn < 2 ^ 32) :
    ∃ held start, Stocked held start ∧ client.Accounts held start record drawn := by
  induction course with
  | start isHint made => exact ⟨_, _, accounts_ofHint isHint left made⟩
  | query _ made ih =>
      obtain ⟨held, start, stocked, accounts⟩ := ih (by omega)
      exact ⟨held, start, stocked, accounts.asks left (asks_of_query made)⟩
  | refused _ made ih =>
      obtain ⟨held, start, stocked, accounts⟩ := ih left
      obtain ⟨owner, rfl⟩ := exists_owner_of_refused made
      exact ⟨held, start, stocked, accounts.refused owner⟩
  | dummy _ made ih =>
      obtain ⟨held, start, stocked, accounts⟩ := ih (by omega)
      exact ⟨held, start, stocked, accounts.asks left (asks_of_dummy made)⟩
  | answer _ member isPending made ih =>
      obtain ⟨held, start, stocked, accounts⟩ := ih left
      exact ⟨held, start, stocked, accounts.answer member isPending made⟩

/-- In every course the queries show the servers the sets that the record tells, and the left
server is shown each set once. The right server is shown the set of an earlier query again if and
only if both queries use up one slot and no other set was put there last between the two. So if
the answers to every refresh are put to use before its slot is refreshed again, and only once, the
right server is shown each set once as well. -/
theorem Course.shown_again_iff (course : Course client record drawn) (left : drawn < 2 ^ 32) :
    (∀ shown, .asked shown ∈ record → client.Shows shown) ∧
      (leftNumbers record).Nodup ∧
      (∀ later second between first earlier,
        record = later ++ .asked second :: (between ++ .asked first :: earlier) →
        (second.rightNumber = first.rightNumber ↔
          ∃ slot, second.slot? = some slot ∧ first.slot? = some slot ∧
            ∀ handle, between.findSome? (Exchange.put? slot) = some handle →
              first.rightNumber = some handle.number)) ∧
      (Settled record → (rightNumbers record).Nodup) := by
  obtain ⟨held, start, stocked, accounts⟩ := course.accounts left
  refine ⟨accounts.shows, accounts.tracked.nodup_leftNumbers, ?_,
    Tracked.nodup_rightNumbers stocked accounts.tracked⟩
  rintro later second between first earlier rfl
  exact Tracked.rightNumber_eq_iff stocked accounts.tracked

/-- A coin that picks a refresh leads to one, for a row that is in a stored set. -/
theorem exists_refresh {table : Table} (sound : client.Sound table)
    (left : client.current.HasNumbersLeft) (holds : client.Holds slot row) (fair : tape.Fair)
    {coin : Nat} {afterCoin : Tape}
    (isCoin : Drawing.below client.rowCount tape = .ok (coin, afterCoin))
    (isRefresh : QueryCase.ofCoin client.setSize coin = .refresh) :
    ∃ queries place set owner current later,
      client.query row tape =
        (.ok (queries, .refresh place set), { client with owner, current }, later) ∧
      client.current.Draws set current ∧ place < client.stored.size := by
  rcases query_cases sound left row tape with
    ⟨failure, owner, -, -, ⟨-, empty⟩ | ⟨-, missed⟩ | ⟨-, unfair⟩⟩ |
    ⟨queries, pending, owner, fresh, current, later, asks, -, -, draws, replaces, -⟩
  · obtain ⟨set, held, -⟩ := holds
    rw [Array.isEmpty_iff.mp empty] at held
    cases held
  · exact absurd holds (missed slot)
  · exact absurd fair unfair
  · obtain ⟨_, place, _, -, isDrawn⟩ := of_query asks
    obtain ⟨_, _, case, set, _, _, _, isCoin', isCase, -, isUsed, rfl, -⟩ := of_drawQuery isDrawn
    obtain ⟨stored, held, -⟩ := of_setAt isUsed
    obtain ⟨rfl, -⟩ := Prod.mk.inj (Except.ok.inj (isCoin.symm.trans isCoin'))
    obtain rfl : case = .refresh := isCase.symm.trans isRefresh
    obtain rfl := replaces place set rfl
    exact ⟨queries, place, set, owner, current, later, asks, draws,
      (Array.getElem?_eq_some_iff.mp held).1⟩

/-- A word that stands for a number is drawn at once. -/
theorem below_of_scaled {bound number : Nat}
    (isNumber : Tape.scaled bound (tape.word tape.position) = some number) :
    Drawing.below bound tape = .ok (number, tape.next.2) := by
  have first : Tape.search (Tape.scaled bound) Tape.patience tape = (some number, tape.next.2) := by
    show Tape.search (Tape.scaled bound) (UInt32.size - 1 + 1) tape = _
    rw [Tape.search]
    simp only [Tape.next, isNumber]
  rw [Drawing.below, Drawing.search, first]

/-- A fair tape whose first word stands for the last of three numbers. -/
theorem below_last :
    ∃ afterCoin, Drawing.below 3 ⟨Tape.circle.word, 3 * 2 ^ 30⟩ = .ok (2, afterCoin) :=
  ⟨_, below_of_scaled (by decide +kernel)⟩

/-- In a refresh the right server is shown the set in the slot. -/
theorem rightNumber_of_refresh (client : PuncturedClient) {used : StoredSet}
    (held : client.stored[slot]? = some used) (row : Nat) (queries : Sides SetQuery)
    (set : KeyedSet) :
    (client.exposure row queries (some (.refresh slot set))).rightNumber =
      some used.handle.number := by
  show (client.stored[slot]?.map StoredSet.handle).map SetHandle.number = _
  rw [held, Option.map_some, Option.map_some]

/-- A client of three rows with one stored set begins a run and a course. -/
theorem exists_course_of_three_rows :
    ∃ table sums client, Run table sums client [] 1 ∧ Course client [] 1 ∧ table.rowCount = 3 ∧
      client.stored.size = 1 ∧ client.setSize = 2 ∧ client.current.cipher = .ofKey .zero := by
  obtain ⟨table, sums, client, _, _, rowCount, isHint, isClient, draws, rest⟩ :=
    exists_client_of_three_rows
  exact ⟨table, sums, client, draws ▸ .start isHint isClient, draws ▸ .start isHint isClient,
    rowCount, rest⟩

/-- A client of three rows with one stored set can refresh its only slot, as long as the first
numbers last. -/
theorem Keeps.exists_refresh {table : Table} {sums : SetSums} {asked : List AskedSet}
    (keeps : client.Keeps table sums asked drawn) (rowCount : table.rowCount = 3)
    (one : client.stored.size = 1) (size : client.setSize = 2)
    (cipher : client.current.cipher = .ofKey .zero) (early : drawn ≤ 2) :
    client.current.draws = 1 ∧ ∃ row tape queries set owner current later,
      client.query row tape =
        (.ok (queries, .refresh 0 set), { client with owner, current }, later) ∧
      current.cipher = .ofKey .zero := by
  have sound := keeps.sound
  have draws : client.current.draws = 1 := keeps.draws_eq_one rowCount size cipher early
  refine ⟨draws, ?_⟩
  obtain ⟨row, holds⟩ := sound.exists_holds (one ▸ Nat.one_pos : 0 < client.stored.size)
  obtain ⟨afterCoin, isCoin⟩ := below_last
  have isLast : Drawing.below client.rowCount ⟨Tape.circle.word, 3 * 2 ^ 30⟩ =
      .ok (2, afterCoin) := by
    rw [PuncturedClient.rowCount, sound.domain, rowCount]
    exact isCoin
  have isRefresh : QueryCase.ofCoin client.setSize 2 = .refresh := by
    rw [size]
    decide
  have left : client.current.HasNumbersLeft := by
    rw [SetGenerator.HasNumbersLeft, keeps.drawn_eq, draws]
    omega
  have fair : Tape.Fair ⟨Tape.circle.word, 3 * 2 ^ 30⟩ := (Tape.fair_congr rfl).mpr Tape.fair_circle
  obtain ⟨queries, place, set, owner, current, later, asks, drawsSet, inside⟩ :=
    PuncturedClient.exists_refresh sound left holds fair isLast isRefresh
  obtain rfl : place = 0 := by omega
  exact ⟨row, _, queries, set, owner, current, later, asks, drawsSet.cipher.trans cipher⟩

/-- A client that has refreshed its only slot, and waits for the answers. -/
theorem exists_refreshed_course :
    ∃ (table : Table) (sums : SetSums) (client : PuncturedClient) (row : Nat)
        (queries : Sides SetQuery) (set : KeyedSet) (owner : Array (Option Nat))
        (current : SetGenerator),
      Course { client with owner, current }
        [.asked (client.exposure row queries (some (.refresh 0 set)))] 2 ∧
      Keeps { client with owner, current } table sums
        [⟨row, queries, .refresh 0 set, client.handleAt 0⟩] 2 ∧
      table.rowCount = 3 ∧ client.stored.size = 1 ∧ client.setSize = 2 ∧
      current.cipher = .ofKey .zero := by
  obtain ⟨table, sums, client, run, course, rowCount, one, size, cipher⟩ :=
    exists_course_of_three_rows
  have few : table.rowCount ≤ 2 ^ 32 := by
    rw [rowCount]
    decide
  have keeps := run.keeps few (by decide)
  obtain ⟨draws, row, tape, queries, set, owner, current, later, asks, cipherAfter⟩ :=
    keeps.exists_refresh rowCount one size cipher (by decide)
  have left : 1 + client.current.draws < 2 ^ 32 := by
    rw [draws]
    decide
  have asked := course.query asks
  have keepsAsked := keeps.query left asks
  rw [draws] at asked keepsAsked
  exact ⟨table, sums, client, row, queries, set, owner, current, asked, keepsAsked, rowCount, one,
    size, cipherAfter⟩

/-- A course with two refreshes of one slot, the first of which is completed before the second. -/
theorem shown_once_in_completed_course :
    ∃ client record drawn, Course client record drawn ∧ drawn < 2 ^ 32 ∧ Settled record ∧
      (∀ shown, .asked shown ∈ record → client.Shows shown) ∧ (leftNumbers record).Nodup ∧
      (rightNumbers record).Nodup ∧ (rightNumbers record).length = 2 := by
  obtain ⟨table, sums, client, row, queries, set, owner, current, course, keeps, rowCount, one,
    size, cipher⟩ := exists_refreshed_course
  obtain ⟨answers, isLeft, isRight, stored, owner', found, -, sizeStored, -⟩ :=
    reconstruct_spec keeps.sound (keeps.answerable _ List.mem_cons_self) rfl
      (keeps.apart _ List.mem_cons_self)
  have keepsFound := keeps.answer List.mem_cons_self isLeft isRight rfl found
  obtain ⟨draws, row', tape, queries', set', owner'', current', later, asks, -⟩ :=
    keepsFound.exists_refresh rowCount (sizeStored.trans one) size cipher (Nat.le_refl 2)
  have completed := (course.answer List.mem_cons_self rfl found).query asks
  have left : 2 + current.draws < 2 ^ 32 := by
    rw [draws]
    decide
  have settled : Settled [.asked (exposure { client with stored, owner := owner', current } row'
      queries' (some (.refresh 0 set'))), .answered (.refresh 0 set),
      .asked (client.exposure row queries (some (.refresh 0 set)))] := by
    refine ((Settled.nil.asked ?_).answered ?_).asked ?_
    · intro between first earlier slot isNil
      exact absurd isNil (by simp)
    · intro number _ member
      cases member
    · intro between first earlier slot split isSlot _
      obtain rfl : 0 = slot := Option.some.inj isSlot
      cases between with
      | nil => cases (List.cons.inj split).1
      | cons head rest =>
          obtain rfl := (List.cons.inj split).1
          exact ⟨set.handle, rfl⟩
  obtain ⟨shows, leftOnce, -, rightOnce⟩ := completed.shown_again_iff left
  refine ⟨_, _, _, completed, left, settled, shows, leftOnce, rightOnce settled, ?_⟩
  have held := Array.getElem?_eq_getElem (one ▸ Nat.one_pos : 0 < client.stored.size)
  have heldAgain := Array.getElem?_eq_getElem (sizeStored.trans one ▸ Nat.one_pos : 0 < stored.size)
  have isFirst := rightNumber_of_refresh client held row queries set
  have isSecond := rightNumber_of_refresh { client with stored, owner := owner', current }
    heldAgain row' queries' set'
  simp only [rightNumbers, List.filterMap_cons, Exchange.shown?, Option.bind_some, Option.bind_none,
    isFirst, isSecond, List.filterMap_nil, List.length_cons, List.length_nil]

/-- A client whose first refresh stays unanswered refreshes the same slot again, and shows the right
server the same set without another member. -/
theorem right_shown_twice_without_answer :
    ∃ client record drawn, Course client record drawn ∧ drawn < 2 ^ 32 ∧
      (∀ shown, .asked shown ∈ record → client.Shows shown) ∧ ¬ (rightNumbers record).Nodup := by
  obtain ⟨table, sums, client, row, queries, set, owner, current, course, keeps, rowCount, one,
    size, cipher⟩ := exists_refreshed_course
  obtain ⟨draws, row', tape, queries', set', owner', current', later, asks, -⟩ :=
    keeps.exists_refresh rowCount one size cipher (Nat.le_refl 2)
  have again := course.query asks
  have left : 2 + current.draws < 2 ^ 32 := by
    rw [draws]
    decide
  obtain ⟨held, start, -, accounts⟩ := again.accounts left
  refine ⟨_, _, _, again, left, accounts.shows, ?_⟩
  -- Between the two queries nothing was put into the slot.
  have held := Array.getElem?_eq_getElem (one ▸ Nat.one_pos : 0 < client.stored.size)
  have isFirst := rightNumber_of_refresh client held row queries set
  have isSecond := rightNumber_of_refresh { client with owner, current } held row' queries' set'
  simp only [rightNumbers, List.filterMap_cons, Exchange.shown?, Option.bind_some, isFirst,
    isSecond, List.filterMap_nil]
  exact List.not_nodup_pair _

end PuncturedClient

end PrivateRetrieval
