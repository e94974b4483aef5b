/-
# Queries of the punctured scheme and their answers

A query of a sound client never breaks a rule: it is refused without stored sets or for a row
that no stored set contains, it draws forever on a tape that is not fair, or it asks the servers
for sets that they accept. The answers of honest servers then tell the row, in each of the three
cases, and in a refresh they also tell the hint of the set that takes the place of the used one.

What the answers to a refresh tell about the row rests on the hint of the used set, so it is
right for as long as that set is in its slot.
-/

import PrivateRetrieval.Proofs.Hints.Soundness
import PrivateRetrieval.Proofs.Random.Searching

namespace PrivateRetrieval

/-- The slot of the set that a query uses up. -/
def PendingSet.slot? : PendingSet → Option Nat
  | .refresh slot _ => some slot
  | .extraRight | .extraLeft => none

/-- A query that was made. -/
structure AskedSet where
  row : Nat
  queries : Sides SetQuery
  pending : PendingSet
  /-- The handle of the set that the query uses up, as it was stored when the query was made. -/
  used : Option SetHandle

/-- The row, if the sums of one set without a member each are known, and the other member. -/
theorem Row.xor_find {length : Nat} {first second member row total : Row}
    (secondFits : second.length = length)
    (rowFits : row.length = length) (isFirst : total = first.xor member)
    (isSecond : total = second.xor row) : (first.xor second).xor member = row := by
  rw [Row.xor_assoc, Row.xor_comm second, ← Row.xor_assoc, ← isFirst, isSecond,
    Row.xor_comm second, Row.xor_xor_cancel (rowFits.trans secondFits.symm)]

namespace PuncturedClient

/-- The handle in a slot. -/
def handleAt (client : PuncturedClient) (slot : Nat) : Option SetHandle :=
  client.stored[slot]?.map StoredSet.handle

/-- The handle of the set that a query uses up. -/
def usedBy (client : PuncturedClient) (pending : PendingSet) : Option SetHandle :=
  pending.slot?.bind client.handleAt

/-- What the answers to a query tell about its row. -/
def Tells (client : PuncturedClient) (table : Table) (asked : AskedSet)
    (answers : Sides SetAnswer) : Prop :=
  match asked.pending with
  | .refresh _ replacement =>
      (∃ used, asked.used = some used ∧
        table.sumAt (client.rebuild used).elements =
          answers.right.sum.xor (table.rowAt asked.row)) ∧
      table.sumAt replacement.elements = answers.left.sum.xor (table.rowAt asked.row)
  | .extraRight =>
      (answers.left.sum.xor answers.right.sum).xor answers.right.extra = table.rowAt asked.row
  | .extraLeft =>
      (answers.left.sum.xor answers.right.sum).xor answers.left.extra = table.rowAt asked.row

/-- A query that honest servers answer, with answers that tell its row. -/
structure Answerable (client : PuncturedClient) (table : Table) (asked : AskedSet) : Prop where
  inside : asked.row < table.rowCount
  answers : ∃ answers, table.answerSet asked.queries.left = .ok answers.left ∧
    table.answerSet asked.queries.right = .ok answers.right ∧
    client.accepts answers.left = true ∧ client.accepts answers.right = true ∧
    client.Tells table asked answers
  /-- The set that takes the place of the used one is one of the later generator. -/
  replacement : ∀ slot set, asked.pending = .refresh slot set → client.current.Owns set ∧
    set.elements.Nodup ∧ client.hinted.nextNumber.toNat ≤ set.handle.number.toNat ∧
    set.handle.number.toNat < client.current.nextNumber.toNat

/-- A client that went on has the same stored sets, and its later generator moved on. -/
structure WentOn (client after : PuncturedClient) : Prop where
  rowLength : after.rowLength = client.rowLength
  stored : after.stored = client.stored
  hinted : after.hinted = client.hinted
  tree : after.current.tree = client.current.tree
  cipher : after.current.cipher = client.current.cipher
  later : client.current.nextNumber.toNat ≤ after.current.nextNumber.toNat

variable {client : PuncturedClient} {table : Table}

/-- A part of a query is one that an honest server answers. -/
theorem ask_spec (sound : client.Sound table) {generator : SetGenerator}
    (sameTree : generator.tree = client.hinted.tree) {set : KeyedSet} (owns : generator.Owns set)
    {without extra : Nat} (member : without ∈ set.elements) (inside : extra < table.rowCount) :
    ∃ query rest, client.ask ⟨set, without, extra⟩ = .ok query ∧
      table.answerSet query = .ok ⟨rest, table.rowAt extra⟩ ∧ rest.length = table.rowLength ∧
      table.sumAt set.elements = rest.xor (table.rowAt without) := by
  have standard : generator.tree.children = Label.children := sameTree ▸ sound.standard
  have domain : generator.tree.domain = table.rowCount := sameTree ▸ sound.domain
  obtain ⟨punctured, isPunctured, lacks⟩ :=
    SetGenerator.exists_puncture standard (sound.sameTree.trans sameTree.symm) owns member
  obtain ⟨rest, answered, length, sum⟩ := Table.answerSet_of_lacks domain owns lacks inside
  refine ⟨⟨punctured, extra⟩, rest, ?_, answered, length, sum⟩
  rw [ask]
  simp only [bind, Except.bind, isPunctured]
  rfl

/-- A set is asked for without one of its members. -/
theorem mem_of_ask {part : QueryPart KeyedSet} {query : SetQuery}
    (asks : client.ask part = .ok query) : part.without ∈ part.set.elements := by
  by_contra absent
  rw [ask, SetGenerator.puncture, List.idxOf?_eq_none_iff.mpr absent] at asks
  cases asks

theorem accepts_eq_true (sound : client.Sound table) {rest : Row} {extra : Nat}
    (length : rest.length = table.rowLength) (inside : extra < table.rowCount) :
    client.accepts ⟨rest, table.rowAt extra⟩ = true := by
  rw [accepts, length, Table.length_rowAt inside, sound.rowLength, beq_self_eq_true, Bool.and_self]

/-- What a client remembers of a query. -/
def pendingOf (case : QueryCase) (slot : Nat) (fresh : KeyedSet) : PendingSet :=
  match case with
  | .refresh => .refresh slot fresh
  | .extraRight => .extraRight
  | .extraLeft => .extraLeft

/-- A refresh is remembered with the slot and the fresh set. -/
theorem eq_of_pendingOf_eq_refresh {case : QueryCase} {slot place : Nat} {fresh set : KeyedSet}
    (isRefresh : pendingOf case slot fresh = .refresh place set) :
    place = slot ∧ set = fresh := by
  cases case with
  | refresh =>
      cases isRefresh
      exact ⟨rfl, rfl⟩
  | extraRight => cases isRefresh
  | extraLeft => cases isRefresh

section Drawn

variable {row slot coin first second : Nat} {fresh stored : KeyedSet} {current : SetGenerator}
  {tape afterCoin afterFirst afterSecond : Tape} {left right : SetQuery} {case : QueryCase}
  {failure : Failure}

theorem drawQuery_of_noFirst
    (isCoin : Drawing.below client.rowCount tape = .ok (coin, afterCoin))
    (isFresh : client.current.freshWith row = .ok (fresh, current))
    (isStored : client.setAt slot = .ok stored)
    (failed : Drawing.memberExcept fresh.elements row afterCoin = .error failure) :
    client.drawQuery row slot tape = .error failure := by
  rw [drawQuery, Drawing.bind_of_ok isCoin]
  dsimp only
  rw [Drawing.bind_of_ok (Drawing.liftM_of_ok isFresh afterCoin)]
  dsimp only
  rw [Drawing.bind_of_ok (Drawing.liftM_of_ok isStored afterCoin), Drawing.bind_of_error failed]

theorem drawQuery_of_noSecond
    (isCoin : Drawing.below client.rowCount tape = .ok (coin, afterCoin))
    (isCase : QueryCase.ofCoin client.setSize coin = case)
    (isFresh : client.current.freshWith row = .ok (fresh, current))
    (isStored : client.setAt slot = .ok stored)
    (isFirst : Drawing.memberExcept fresh.elements row afterCoin = .ok (first, afterFirst))
    (failed : Drawing.memberExcept (case.secondSource row fresh stored first).1.elements
      (case.secondSource row fresh stored first).2 afterFirst = .error failure) :
    client.drawQuery row slot tape = .error failure := by
  subst isCase
  rw [drawQuery, Drawing.bind_of_ok isCoin]
  dsimp only
  rw [Drawing.bind_of_ok (Drawing.liftM_of_ok isFresh afterCoin)]
  dsimp only
  rw [Drawing.bind_of_ok (Drawing.liftM_of_ok isStored afterCoin), Drawing.bind_of_ok isFirst,
    Drawing.bind_of_error failed]

/-- The queries for a row, once everything was drawn. -/
theorem drawQuery_of_ok
    (isCoin : Drawing.below client.rowCount tape = .ok (coin, afterCoin))
    (isCase : QueryCase.ofCoin client.setSize coin = case)
    (isFresh : client.current.freshWith row = .ok (fresh, current))
    (isStored : client.setAt slot = .ok stored)
    (isFirst : Drawing.memberExcept fresh.elements row afterCoin = .ok (first, afterFirst))
    (isSecond : Drawing.memberExcept (case.secondSource row fresh stored first).1.elements
      (case.secondSource row fresh stored first).2 afterFirst = .ok (second, afterSecond))
    (isLeft : client.ask (case.parts row fresh stored first second).left = .ok left)
    (isRight : client.ask (case.parts row fresh stored first second).right = .ok right) :
    client.drawQuery row slot tape =
      .ok (((⟨left, right⟩, pendingOf case slot fresh), current), afterSecond) := by
  subst isCase
  rw [drawQuery, Drawing.bind_of_ok isCoin]
  dsimp only
  rw [Drawing.bind_of_ok (Drawing.liftM_of_ok isFresh afterCoin)]
  dsimp only
  rw [Drawing.bind_of_ok (Drawing.liftM_of_ok isStored afterCoin), Drawing.bind_of_ok isFirst,
    Drawing.bind_of_ok isSecond, Drawing.bind_of_ok (Drawing.liftM_of_ok isLeft afterSecond),
    Drawing.bind_of_ok (Drawing.liftM_of_ok isRight afterSecond)]
  rfl

end Drawn

/-- The parts of a query are answered, and the answers tell the row, whichever members are
drawn. -/
theorem parts_spec (sound : client.Sound table) {row slot first second : Nat} {used : StoredSet}
    (held : client.stored[slot]? = some used)
    (inUsed : row ∈ (client.rebuild used.handle).elements) {fresh : KeyedSet}
    (owns : client.current.Owns fresh) (inFresh : row ∈ fresh.elements)
    (isFirst : first ∈ fresh.elements) (case : QueryCase)
    (isSecond : second ∈
      (case.secondSource row fresh (client.rebuild used.handle) first).1.elements) :
    ∃ queries : Sides SetQuery, ∃ answers : Sides SetAnswer,
      client.ask (case.parts row fresh (client.rebuild used.handle) first second).left =
        .ok queries.left ∧
      client.ask (case.parts row fresh (client.rebuild used.handle) first second).right =
        .ok queries.right ∧
      table.answerSet queries.left = .ok answers.left ∧
      table.answerSet queries.right = .ok answers.right ∧
      client.accepts answers.left = true ∧ client.accepts answers.right = true ∧
      client.Tells table ⟨row, queries, pendingOf case slot fresh,
        client.usedBy (pendingOf case slot fresh)⟩ answers := by
  have ownsUsed := SetGenerator.owns_rebuild (client.generatorOf used.handle) used.handle
  have treeUsed := sound.tree_generatorOf used.handle
  have containsFresh := sound.contains_current owns
  have containsUsed := sound.contains_rebuild used.handle
  have rowInside := containsFresh row inFresh
  have rowFits := Table.length_rowAt rowInside
  have firstInside := containsFresh first isFirst
  cases case with
  | refresh =>
      have secondInside := containsUsed second isSecond
      obtain ⟨left, leftSum, asksLeft, answersLeft, leftFits, freshSum⟩ :=
        ask_spec sound sound.sameTree owns inFresh firstInside
      obtain ⟨right, rightSum, asksRight, answersRight, rightFits, usedSum⟩ :=
        ask_spec sound treeUsed ownsUsed inUsed secondInside
      refine ⟨⟨left, right⟩, ⟨_, _⟩, asksLeft, asksRight, answersLeft, answersRight,
        accepts_eq_true sound leftFits firstInside, accepts_eq_true sound rightFits secondInside,
        ⟨used.handle, ?_, usedSum⟩, freshSum⟩
      show client.stored[slot]?.map StoredSet.handle = some used.handle
      rw [held, Option.map_some]
  | extraRight =>
      have secondInside := containsFresh second isSecond
      obtain ⟨left, leftSum, asksLeft, answersLeft, leftFits, withoutFirst⟩ :=
        ask_spec sound sound.sameTree owns isFirst secondInside
      obtain ⟨right, rightSum, asksRight, answersRight, rightFits, withoutRow⟩ :=
        ask_spec sound sound.sameTree owns inFresh firstInside
      refine ⟨⟨left, right⟩, ⟨_, _⟩, asksLeft, asksRight, answersLeft, answersRight,
        accepts_eq_true sound leftFits secondInside, accepts_eq_true sound rightFits firstInside,
        ?_⟩
      exact Row.xor_find rightFits rowFits withoutFirst withoutRow
  | extraLeft =>
      have secondInside := containsFresh second isSecond
      obtain ⟨left, leftSum, asksLeft, answersLeft, leftFits, withoutRow⟩ :=
        ask_spec sound sound.sameTree owns inFresh firstInside
      obtain ⟨right, rightSum, asksRight, answersRight, rightFits, withoutFirst⟩ :=
        ask_spec sound sound.sameTree owns isFirst secondInside
      refine ⟨⟨left, right⟩, ⟨_, _⟩, asksLeft, asksRight, answersLeft, answersRight,
        accepts_eq_true sound leftFits firstInside, accepts_eq_true sound rightFits secondInside,
        ?_⟩
      show (leftSum.xor rightSum).xor (table.rowAt first) = table.rowAt row
      rw [Row.xor_comm leftSum]
      exact Row.xor_find leftFits rowFits withoutFirst withoutRow

/-- A member other than a given one can be drawn from a set of a sound client. -/
theorem memberExcept_cases (sound : client.Sound table) {set : KeyedSet}
    (distinct : set.elements.Nodup) (length : set.elements.length = client.setSize)
    (excluded : Nat) (tape : Tape) :
    (∃ member after, Drawing.memberExcept set.elements excluded tape = .ok (member, after) ∧
        after.word = tape.word ∧ member ∈ set.elements ∧ member ≠ excluded) ∨
      (Drawing.memberExcept set.elements excluded tape = .error .exhausted ∧ ¬ tape.Fair) :=
  Drawing.memberExcept_cases distinct (length ▸ sound.twoElements)
    (length ▸ sound.setSize_le.trans sound.few) excluded tape

/-- Queries for a row of a stored set are drawn, and can be answered, or the tape is not fair. -/
theorem drawQuery_cases (sound : client.Sound table) (left : client.current.HasNumbersLeft)
    {row slot : Nat} (holds : client.Holds slot row) (tape : Tape) :
    (client.drawQuery row slot tape = .error .exhausted ∧ ¬ tape.Fair) ∨
      ∃ queries pending fresh current after,
        client.drawQuery row slot tape = .ok (((queries, pending), current), after) ∧
        after.word = tape.word ∧ client.current.Draws fresh current ∧
        (∀ place set, pending = .refresh place set → place = slot ∧ set = fresh) ∧
        ∃ answers : Sides SetAnswer, table.answerSet queries.left = .ok answers.left ∧
          table.answerSet queries.right = .ok answers.right ∧
          client.accepts answers.left = true ∧ client.accepts answers.right = true ∧
          client.Tells table ⟨row, queries, pending, client.usedBy pending⟩ answers := by
  obtain ⟨used, held, inUsed⟩ := holds
  have inside := sound.contains_rebuild used.handle row inUsed
  have isStored : client.setAt slot = .ok (client.rebuild used.handle) := by
    rw [setAt, held]
  obtain ⟨fresh, current, isFresh, draws, inFresh⟩ :=
    SetGenerator.exists_freshWith (sound.domain_current.symm ▸ sound.few) left
      (sound.domain_current.symm ▸ inside)
  have lengthFresh : fresh.elements.length = client.setSize := by
    rw [draws.owns.length_elements, sound.size_current]
  have rowCount : client.rowCount = table.rowCount := sound.domain
  rcases Drawing.below_cases (rowCount ▸ sound.twoElements.trans sound.setSize_le)
      (rowCount ▸ sound.few) tape with
    ⟨coin, afterCoin, isCoin, sameCoin, -⟩ | ⟨failed, unfair⟩
  swap
  · refine Or.inl ⟨?_, unfair⟩
    rw [drawQuery, Drawing.bind_of_error failed]
  rcases memberExcept_cases sound draws.distinct lengthFresh row afterCoin with
    ⟨first, afterFirst, isFirst, sameFirst, inFirst, -⟩ | ⟨failed, unfair⟩
  swap
  · refine Or.inl ⟨drawQuery_of_noFirst isCoin isFresh isStored failed, fun fair => unfair ?_⟩
    exact (Tape.fair_congr sameCoin).mpr fair
  set case := QueryCase.ofCoin client.setSize coin with isCase
  -- The second set has distinct elements too, whether it is the stored one or the fresh one.
  have source : ∀ case : QueryCase,
      (case.secondSource row fresh (client.rebuild used.handle) first).1.elements.Nodup ∧
        (case.secondSource row fresh (client.rebuild used.handle) first).1.elements.length =
          client.setSize := by
    intro case
    cases case with
    | refresh => exact ⟨(sound.stored held).2.1, sound.length_rebuild used.handle⟩
    | extraRight => exact ⟨draws.distinct, lengthFresh⟩
    | extraLeft => exact ⟨draws.distinct, lengthFresh⟩
  rcases memberExcept_cases sound (source case).1 (source case).2
      (case.secondSource row fresh (client.rebuild used.handle) first).2 afterFirst with
    ⟨second, afterSecond, isSecond, sameSecond, inSecond, -⟩ | ⟨failed, unfair⟩
  swap
  · refine Or.inl ⟨drawQuery_of_noSecond isCoin isCase.symm isFresh isStored isFirst failed,
      fun fair => unfair ?_⟩
    exact (Tape.fair_congr (sameFirst.trans sameCoin)).mpr fair
  obtain ⟨queries, answers, asksLeft, asksRight, rest⟩ :=
    parts_spec sound held inUsed draws.owns inFresh inFirst case inSecond
  exact Or.inr ⟨queries, pendingOf case slot fresh, fresh, current, afterSecond,
    drawQuery_of_ok isCoin isCase.symm isFresh isStored isFirst isSecond asksLeft asksRight,
    sameSecond.trans (sameFirst.trans sameCoin), draws,
    fun place set isRefresh => eq_of_pendingOf_eq_refresh isRefresh, answers, rest⟩

theorem wentOn_of_draws {owner : Array (Option Nat)} {set : KeyedSet} {current : SetGenerator}
    (draws : client.current.Draws set current) :
    client.WentOn { client with owner, current } where
  rowLength := rfl
  stored := rfl
  hinted := rfl
  tree := draws.tree
  cipher := draws.cipher
  later := (draws.number_ge.trans_lt draws.number_lt).le

/-- A client that went on tells the same of answers. -/
theorem WentOn.tells {after : PuncturedClient} (wentOn : client.WentOn after) {asked : AskedSet}
    {answers : Sides SetAnswer} (tells : client.Tells table asked answers) :
    after.Tells table asked answers := by
  have same := rebuild_congr wentOn.hinted wentOn.tree wentOn.cipher
  rw [Tells] at tells ⊢
  split
  · rename_i isRefresh
    simp only [isRefresh] at tells
    obtain ⟨⟨used, isUsed, sum⟩, replaced⟩ := tells
    exact ⟨⟨used, isUsed, by rwa [same]⟩, replaced⟩
  · rename_i isExtra
    simpa only [isExtra] using tells
  · rename_i isExtra
    simpa only [isExtra] using tells

/-- A query that can be answered can still be answered by a client that went on. -/
theorem WentOn.answerable {after : PuncturedClient} (wentOn : client.WentOn after)
    {asked : AskedSet} (answerable : client.Answerable table asked) :
    after.Answerable table asked where
  inside := answerable.inside
  answers := by
    obtain ⟨answers, left, right, fitsLeft, fitsRight, tells⟩ := answerable.answers
    rw [accepts, ← wentOn.rowLength] at fitsLeft fitsRight
    exact ⟨answers, left, right, fitsLeft, fitsRight, wentOn.tells tells⟩
  replacement := by
    intro slot set isRefresh
    obtain ⟨owns, distinct, ge, lt⟩ := answerable.replacement slot set isRefresh
    rw [wentOn.hinted]
    exact ⟨(SetGenerator.owns_congr wentOn.tree wentOn.cipher).mpr owns, distinct, ge,
      lt.trans_le wentOn.later⟩

/-- All that a query for a row can come to, whatever is known of the client. -/
inductive QueryEnds (client : PuncturedClient) (row : Nat) (tape : Tape) :
    Outcome (Sides SetQuery × PendingSet) → PuncturedClient → Tape → Prop
  | noHint : client.stored.isEmpty = true → QueryEnds client row tape (.error .noHint) client tape
  | notCovered {owner : Array (Option Nat)} :
      client.stored.isEmpty = false → client.locate row = (none, { client with owner }) →
      QueryEnds client row tape (.error (.notCovered row)) { client with owner } tape
  | failed {owner : Array (Option Nat)} {slot : Nat} {failure : Failure} :
      client.stored.isEmpty = false → client.locate row = (some slot, { client with owner }) →
      PuncturedClient.drawQuery { client with owner } row slot tape = .error failure →
      QueryEnds client row tape (.error failure) { client with owner } tape
  | drawn {owner : Array (Option Nat)} {slot : Nat} {result : Sides SetQuery × PendingSet}
      {current : SetGenerator} {later : Tape} :
      client.stored.isEmpty = false → client.locate row = (some slot, { client with owner }) →
      PuncturedClient.drawQuery { client with owner } row slot tape =
        .ok ((result, current), later) →
      QueryEnds client row tape (.ok result) { client with owner, current } later

theorem queryEnds {row : Nat} {tape later : Tape} {after : PuncturedClient}
    {result : Outcome (Sides SetQuery × PendingSet)}
    (made : client.query row tape = (result, after, later)) :
    QueryEnds client row tape result after later := by
  rw [query] at made
  split at made
  · rename_i empty
    cases made
    exact .noHint empty
  · rename_i filled
    rw [Bool.not_eq_true] at filled
    obtain ⟨slot, owner, located⟩ := exists_locate_eq client row
    rw [located] at made
    cases slot with
    | none =>
        cases made
        exact .notCovered filled located
    | some slot =>
        dsimp only at made
        split at made
        · rename_i isDrawn
          cases made
          exact .drawn filled located isDrawn
        · rename_i isError
          cases made
          exact .failed filled located isError

/-- A refused query changes no more than the notes. -/
theorem exists_owner_of_refused {row : Nat} {tape later : Tape} {after : PuncturedClient}
    {failure : Failure} (refused : client.query row tape = (.error failure, after, later)) :
    ∃ owner, after = { client with owner } := by
  cases queryEnds refused with
  | noHint => exact ⟨_, rfl⟩
  | notCovered => exact ⟨_, rfl⟩
  | failed => exact ⟨_, rfl⟩

/-- Queries for a row are drawn for a slot that was found. -/
theorem of_query {row : Nat} {tape later : Tape} {after : PuncturedClient}
    {queries : Sides SetQuery} {pending : PendingSet}
    (made : client.query row tape = (.ok (queries, pending), after, later)) :
    ∃ owner slot current, after = { client with owner, current } ∧
      PuncturedClient.drawQuery { client with owner } row slot tape =
        .ok (((queries, pending), current), later) := by
  cases queryEnds made with
  | drawn _ _ isDrawn => exact ⟨_, _, _, rfl, isDrawn⟩

/-- The outcomes of a query for a row. -/
theorem query_cases (sound : client.Sound table) (left : client.current.HasNumbersLeft) (row : Nat)
    (tape : Tape) :
    (∃ failure owner, client.query row tape = (.error failure, { client with owner }, tape) ∧
        Sound { client with owner } table ∧
        (failure = .noHint ∧ client.stored.isEmpty = true ∨
          failure = .notCovered row ∧ (∀ slot, ¬ client.Holds slot row) ∨
          failure = .exhausted ∧ ¬ tape.Fair)) ∨
      ∃ queries pending owner fresh current later,
        client.query row tape =
          (.ok (queries, pending), { client with owner, current }, later) ∧
        later.word = tape.word ∧ Sound { client with owner, current } table ∧
        client.current.Draws fresh current ∧
        (∀ slot set, pending = .refresh slot set → set = fresh) ∧
        Answerable { client with owner, current } table
          ⟨row, queries, pending, client.usedBy pending⟩ := by
  obtain ⟨soundLocated, found, missed⟩ := locate_spec sound row
  rcases made : client.query row tape with ⟨result, after, later⟩
  cases queryEnds made with
  | noHint empty => exact Or.inl ⟨.noHint, client.owner, rfl, sound, Or.inl ⟨rfl, empty⟩⟩
  | notCovered filled located =>
      rw [located] at soundLocated missed
      exact Or.inl ⟨_, _, rfl, soundLocated, Or.inr (Or.inl ⟨rfl, missed rfl⟩)⟩
  | @failed owner slot failure filled located isError =>
      rw [located] at soundLocated found
      have holds : Holds { client with owner } slot row := found slot rfl
      rcases drawQuery_cases soundLocated left holds tape with ⟨failed, unfair⟩ |
        ⟨queries, pending, fresh, current, later, drawn, -⟩
      · obtain rfl := Except.error.inj (isError.symm.trans failed)
        exact Or.inl ⟨_, owner, rfl, soundLocated, Or.inr (Or.inr ⟨rfl, unfair⟩)⟩
      · cases isError.symm.trans drawn
  | @drawn owner slot result current later filled located isDrawn =>
      rw [located] at soundLocated found
      have holds : Holds { client with owner } slot row := found slot rfl
      rcases drawQuery_cases soundLocated left holds tape with ⟨failed, -⟩ |
        ⟨queries, pending, fresh, current, later, drawn, same, draws, replaces, answers⟩
      · cases isDrawn.symm.trans failed
      · cases isDrawn.symm.trans drawn
        have wentOn : WentOn { client with owner } { client with owner, current } :=
          wentOn_of_draws draws
        refine Or.inr ⟨queries, pending, owner, fresh, current, later, rfl, same,
          soundLocated.withCurrent draws, draws, fun place set isRefresh =>
            (replaces place set isRefresh).2, soundLocated.lt_of_holds holds, ?_, ?_⟩
        · obtain ⟨answers, isLeft, isRight, fitsLeft, fitsRight, tells⟩ := answers
          exact ⟨answers, isLeft, isRight, fitsLeft, fitsRight, wentOn.tells tells⟩
        · intro place set isRefresh
          obtain ⟨-, rfl⟩ := replaces place set isRefresh
          exact ⟨(SetGenerator.owns_congr draws.tree draws.cipher).mpr draws.owns, draws.distinct,
            sound.inOrder.trans draws.number_ge, draws.number_lt⟩

/-- The outcomes of queries for nothing. Honest servers answer them. -/
theorem dummy_cases (sound : client.Sound table) (left : client.current.HasNumbersLeft)
    (tape : Tape) :
    (client.dummy tape = (.error .exhausted, client, tape) ∧ ¬ tape.Fair) ∨
      ∃ queries fresh current later,
        client.dummy tape = (.ok queries, { client with current }, later) ∧
        later.word = tape.word ∧ Sound { client with current } table ∧
        client.current.Draws fresh current ∧
        (∃ answer, table.answerSet queries.left = .ok answer) ∧
        ∃ answer, table.answerSet queries.right = .ok answer := by
  have inside : 0 < table.rowCount :=
    Nat.lt_of_lt_of_le Nat.zero_lt_two (sound.twoElements.trans sound.setSize_le)
  obtain ⟨fresh, current, isFresh, draws, inFresh⟩ :=
    SetGenerator.exists_freshWith (sound.domain_current.symm ▸ sound.few) left
      (sound.domain_current.symm ▸ inside)
  have lengthFresh : fresh.elements.length = client.setSize := by
    rw [draws.owns.length_elements, sound.size_current]
  rw [dummy]
  rcases memberExcept_cases sound draws.distinct lengthFresh 0 tape with
    ⟨extra, later, isExtra, same, member, -⟩ | ⟨failed, unfair⟩
  · obtain ⟨query, sum, asks, answered, -, -⟩ := ask_spec sound sound.sameTree draws.owns inFresh
      (sound.contains_current draws.owns extra member)
    have drawn : client.drawDummy tape = .ok ((Sides.both query, current), later) := by
      rw [drawDummy, Drawing.bind_of_ok (Drawing.liftM_of_ok isFresh tape)]
      dsimp only
      rw [Drawing.bind_of_ok isExtra, Drawing.bind_of_ok (Drawing.liftM_of_ok asks later)]
      rfl
    refine Or.inr ⟨Sides.both query, fresh, current, later, ?_, same, sound.withCurrent draws,
      draws, ⟨_, answered⟩, ⟨_, answered⟩⟩
    simp only [drawn]
  · refine Or.inl ⟨?_, unfair⟩
    have failedDraw : client.drawDummy tape = .error .exhausted := by
      rw [drawDummy, Drawing.bind_of_ok (Drawing.liftM_of_ok isFresh tape)]
      dsimp only
      rw [Drawing.bind_of_error failed]
    simp only [failedDraw]

/-- The hint of the used set and the sum of its other rows give the row. -/
theorem xor?_hint_eq_row (sound : client.Sound table) {used : StoredSet} {slot row : Nat}
    (held : client.stored[slot]? = some used) (inside : row < table.rowCount) {rest : Row}
    (fits : rest.length = table.rowLength)
    (sum : table.sumAt (client.rebuild used.handle).elements = rest.xor (table.rowAt row)) :
    Row.xor? used.hint rest = .ok (table.rowAt row) := by
  have rowFits := Table.length_rowAt inside
  rw [← (sound.stored held).1] at sum
  have hintFits : used.hint.length = table.rowLength := by
    rw [sum]
    exact Row.length_xor_of fits rowFits
  rw [Row.xor?, if_pos (hintFits.trans fits.symm), sum, Row.xor_comm rest,
    Row.xor_xor_cancel (rowFits.trans fits.symm)]

/-- Honest answers tell the row. If the query used up a set, that set must still be in its slot,
and the number of the set that takes its place must be in no other slot. -/
theorem reconstruct_spec (sound : client.Sound table) {asked : AskedSet}
    (answerable : client.Answerable table asked)
    (isStored : client.usedBy asked.pending = asked.used)
    (apart : ∀ slot set, asked.pending = .refresh slot set → ∀ other stored,
      client.stored[other]? = some stored → stored.handle.number = set.handle.number →
      other = slot) :
    ∃ answers : Sides SetAnswer, table.answerSet asked.queries.left = .ok answers.left ∧
      table.answerSet asked.queries.right = .ok answers.right ∧
      ∃ stored owner, client.reconstruct asked.pending answers =
          .ok (table.rowAt asked.row, { client with stored, owner }) ∧
        Sound { client with stored, owner } table ∧
        stored.size = client.stored.size ∧
        ∀ other set, stored[other]? = some set → client.stored[other]? = some set ∨
          ∃ replacement, asked.pending = .refresh other replacement ∧
            set.handle = replacement.handle := by
  obtain ⟨answers, isLeft, isRight, fitsLeft, fitsRight, tells⟩ := answerable.answers
  refine ⟨answers, isLeft, isRight, ?_⟩
  have accepted : (!(client.accepts answers.left && client.accepts answers.right)) = false := by
    rw [fitsLeft, fitsRight]
    rfl
  rw [Tells] at tells
  cases isPending : asked.pending with
  | refresh slot replacement =>
      simp only [isPending] at tells
      obtain ⟨⟨handle, isHandle, usedSum⟩, replacedSum⟩ := tells
      rw [isPending, isHandle] at isStored
      obtain ⟨used, held, rfl⟩ := Option.map_eq_some_iff.mp isStored
      obtain ⟨owns, distinct, ge, lt⟩ := answerable.replacement slot replacement isPending
      obtain ⟨owner, replaced, soundAfter⟩ := replace_spec sound held owns ge lt distinct
        (apart slot replacement isPending)
      have rightFits : answers.right.sum.length = table.rowLength := by
        rw [← sound.rowLength]
        exact eq_of_beq (Bool.and_eq_true_iff.mp fitsRight).1
      have found := xor?_hint_eq_row sound held answerable.inside rightFits usedSum
      refine ⟨_, owner, ?_, soundAfter, Array.size_setIfInBounds, ?_⟩
      · simp only [reconstruct, accepted, held, found, bind, Except.bind, ← replacedSum, replaced]
        rfl
      · intro other set isSet
        have inside := (Array.getElem?_eq_some_iff.mp held).1
        rcases (getElem?_setIfInBounds_iff inside _ other set).mp isSet with
          ⟨rfl, rfl⟩ | ⟨-, before⟩
        · exact Or.inr ⟨replacement, rfl, rfl⟩
        · exact Or.inl before
  | extraRight =>
      simp only [isPending] at tells
      refine ⟨client.stored, client.owner, ?_, sound, rfl, fun other set isSet => Or.inl isSet⟩
      simp only [reconstruct, accepted, tells]
      rfl
  | extraLeft =>
      simp only [isPending] at tells
      refine ⟨client.stored, client.owner, ?_, sound, rfl, fun other set isSet => Or.inl isSet⟩
      simp only [reconstruct, accepted, tells]
      rfl

end PuncturedClient

end PrivateRetrieval
