/-
# Records of what the servers are shown

Queries of the punctured scheme show each server a set without a member. A record lists what
happened between a client and its servers, the newest exchange first: queries that went out, and
answers that were put to use. What is in a slot can be read off the record, since answers are all
that changes it.

Every set is drawn for one query, and the number of a set tells which query that was. The left
server is shown the drawn set, so it is shown each set once. The right server is shown a stored set
in a refresh, and the same set again in the next refresh of that slot, unless another set was put
into the slot between the two.
-/

import PrivateRetrieval.Proofs.Hints.Queries

namespace PrivateRetrieval

/-- Queries that went out. -/
structure Exposure where
  queries : Sides SetQuery
  /-- The handles of the sets of which the servers are shown all members but one. -/
  sets : Sides (Option SetHandle)
  /-- What the client remembers, if somebody waits for the answers. -/
  pending : Option PendingSet

namespace Exposure

/-- The number of the set that the left server is shown. -/
def leftNumber (shown : Exposure) : Option UInt32 := shown.sets.left.map SetHandle.number

/-- The number of the set that the right server is shown. -/
def rightNumber (shown : Exposure) : Option UInt32 := shown.sets.right.map SetHandle.number

/-- The slot whose set the queries use up. -/
def slot? (shown : Exposure) : Option Nat := shown.pending.bind PendingSet.slot?

end Exposure

/-- What happens between a client and its servers. -/
inductive Exchange
  | asked (shown : Exposure)
  /-- Answers were put to use. -/
  | answered (pending : PendingSet)

namespace Exchange

/-- The queries of an exchange. -/
def shown? : Exchange → Option Exposure
  | .asked shown => some shown
  | .answered _ => none

theorem bind_shown?_eq_some {α : Type} {f : Exposure → Option α} {exchange : Exchange}
    {value : α} : exchange.shown?.bind f = some value ↔
      ∃ shown, exchange = .asked shown ∧ f shown = some value := by
  cases exchange with
  | asked shown => simp [shown?]
  | answered pending => simp [shown?]

/-- The number of the set that the answers to a refresh put into its slot. -/
def replacement? : Exchange → Option UInt32
  | .answered (.refresh _ set) => some set.handle.number
  | .answered .extraRight | .answered .extraLeft | .asked _ => none

/-- The set that an exchange puts into a given slot. -/
def put? (slot : Nat) : Exchange → Option SetHandle
  | .answered (.refresh place set) => if place = slot then some set.handle else none
  | .answered .extraRight | .answered .extraLeft | .asked _ => none

theorem put?_eq_some {slot : Nat} {exchange : Exchange} {handle : SetHandle} :
    exchange.put? slot = some handle ↔
      ∃ set, exchange = .answered (.refresh slot set) ∧ set.handle = handle := by
  cases exchange with
  | asked shown => simp [put?]
  | answered pending =>
      cases pending with
      | refresh place set =>
          by_cases same : place = slot
          · simp [put?, same]
          · simp [put?, same]
      | extraRight => simp [put?]
      | extraLeft => simp [put?]

end Exchange

/-- Values of a list are distinct if any two places that have values have distinct ones. -/
theorem nodup_filterMap_of_apart {α β : Type} {f : α → Option β} {list : List α}
    (apart : ∀ later second between first earlier value,
      list = later ++ second :: (between ++ first :: earlier) →
      f second = some value → f first ≠ some value) : (list.filterMap f).Nodup := by
  induction list with
  | nil => exact List.nodup_nil
  | cons head rest ih =>
      have restNodup : (rest.filterMap f).Nodup :=
        ih fun later second between first earlier value isRest =>
          apart (head :: later) second between first earlier value (isRest ▸ rfl)
      cases isHead : f head with
      | none =>
          rw [List.filterMap_cons_none isHead]
          exact restNodup
      | some value =>
          rw [List.filterMap_cons_some isHead, List.nodup_cons]
          refine ⟨fun member => ?_, restNodup⟩
          obtain ⟨first, inRest, isFirst⟩ := List.mem_filterMap.mp member
          obtain ⟨between, earlier, rfl⟩ := List.append_of_mem inRest
          exact apart [] head between first earlier value rfl isHead isFirst

/-- The numbers of the sets that the left server is shown. -/
def leftNumbers (record : List Exchange) : List UInt32 :=
  record.filterMap fun exchange => exchange.shown?.bind Exposure.leftNumber

/-- The numbers of the sets that the right server is shown. -/
def rightNumbers (record : List Exchange) : List UInt32 :=
  record.filterMap fun exchange => exchange.shown?.bind Exposure.rightNumber

/-- The set in a slot, if `held` tells which sets were there before the record. -/
def contents (held : Nat → Option SetHandle) (record : List Exchange) (slot : Nat) :
    Option SetHandle :=
  (record.findSome? (Exchange.put? slot)).or (held slot)

/-- Records in which the answers to a refresh are put to use at most once, and no slot is refreshed
again before a set was put into it. -/
structure Settled (record : List Exchange) : Prop where
  once : (record.filterMap Exchange.replacement?).Nodup
  replaced : ∀ later second between first earlier slot,
    record = later ++ .asked second :: (between ++ .asked first :: earlier) →
    second.slot? = some slot → first.slot? = some slot →
    ∃ handle, between.findSome? (Exchange.put? slot) = some handle

namespace Settled

theorem nil : Settled [] where
  once := List.nodup_nil
  replaced := by
    intro later second between first earlier slot isNil
    exact absurd isNil (by simp)

/-- A record stays settled with queries that use up no slot, or one that was filled since. -/
theorem asked {record : List Exchange} (settled : Settled record) {shown : Exposure}
    (filled : ∀ between first earlier slot, record = between ++ .asked first :: earlier →
      shown.slot? = some slot → first.slot? = some slot →
      ∃ handle, between.findSome? (Exchange.put? slot) = some handle) :
    Settled (.asked shown :: record) where
  once := settled.once
  replaced := by
    intro later second between first earlier slot split isSecond isFirst
    rcases List.cons_eq_append_iff.mp split with ⟨-, atHead⟩ | ⟨rest, rfl, inRest⟩
    · obtain ⟨same, isRest⟩ := List.cons.inj atHead
      cases same
      exact filled between first earlier slot isRest.symm isSecond isFirst
    · exact settled.replaced rest second between first earlier slot inRest isSecond isFirst

/-- A record stays settled with answers that are put to use for the first time. -/
theorem answered {record : List Exchange} (settled : Settled record) {pending : PendingSet}
    (first : ∀ number, (Exchange.answered pending).replacement? = some number →
      number ∉ record.filterMap Exchange.replacement?) :
    Settled (.answered pending :: record) where
  once := by
    rw [List.filterMap_cons]
    cases isReplacement : (Exchange.answered pending).replacement? with
    | none => exact settled.once
    | some number => exact List.nodup_cons.mpr ⟨first number isReplacement, settled.once⟩
  replaced := by
    intro later second between first earlier slot split isSecond isFirst
    rcases List.cons_eq_append_iff.mp split with ⟨-, atHead⟩ | ⟨rest, rfl, inRest⟩
    · cases (List.cons.inj atHead).1
    · exact settled.replaced rest second between first earlier slot inRest isSecond isFirst

end Settled

/-- The sets in the slots before a record: their numbers are below that of the first set that is
drawn later, and no two are the same. -/
structure Stocked (held : Nat → Option SetHandle) (start : Nat) : Prop where
  early : ∀ slot handle, held slot = some handle → handle.number.toNat < start
  apart : ∀ first second handle other, held first = some handle → held second = some other →
    handle.number = other.number → first = second

/-- Records of a client that draws a set for every query, with numbers from `start` on and below
the second bound. The answers are to queries that were made. -/
inductive Tracked (held : Nat → Option SetHandle) (start : Nat) : List Exchange → Nat → Prop
  | start : Tracked held start [] start
  /-- Both servers are shown the set that was drawn. -/
  | fresh {record : List Exchange} {drawn after : Nat} {shown : Exposure} {handle : SetHandle} :
      Tracked held start record drawn → drawn ≤ handle.number.toNat →
      handle.number.toNat < after → shown.sets = .both (some handle) → shown.slot? = none →
      Tracked held start (.asked shown :: record) after
  /-- The right server is shown the set in a slot. -/
  | refresh {record : List Exchange} {drawn after slot : Nat} {shown : Exposure} {set : KeyedSet}
      {used : SetHandle} :
      Tracked held start record drawn → drawn ≤ set.handle.number.toNat →
      set.handle.number.toNat < after → contents held record slot = some used →
      shown.sets = ⟨some set.handle, some used⟩ → shown.pending = some (.refresh slot set) →
      Tracked held start (.asked shown :: record) after
  | answered {record : List Exchange} {drawn : Nat} {shown : Exposure} {pending : PendingSet} :
      Tracked held start record drawn → .asked shown ∈ record → shown.pending = some pending →
      Tracked held start (.answered pending :: record) drawn

theorem contents_asked {held : Nat → Option SetHandle} {record : List Exchange} {shown : Exposure}
    (slot : Nat) : contents held (.asked shown :: record) slot = contents held record slot := rfl

theorem contents_answered {held : Nat → Option SetHandle} {record : List Exchange}
    {pending : PendingSet} (slot : Nat) :
    contents held (.answered pending :: record) slot =
      (Exchange.put? slot (.answered pending)).or (contents held record slot) := by
  rw [contents, contents, List.findSome?_cons]
  cases Exchange.put? slot (.answered pending) with
  | none => rfl
  | some handle => rfl

/-- What is in a slot was put there last, or it was there before. -/
theorem contents_append {held : Nat → Option SetHandle} (later earlier : List Exchange)
    (slot : Nat) :
    contents held (later ++ earlier) slot =
      (later.findSome? (Exchange.put? slot)).or (contents held earlier slot) := by
  rw [contents, contents, List.findSome?_append, Option.or_assoc]

/-- How a set comes into a slot: it was there at first, or it was drawn for a refresh of it. -/
def ComesTo (held : Nat → Option SetHandle) (record : List Exchange) (slot : Nat)
    (handle : SetHandle) : Prop :=
  held slot = some handle ∨
    ∃ shown set, .asked shown ∈ record ∧ shown.pending = some (.refresh slot set) ∧
      set.handle = handle

theorem ComesTo.mono {held : Nat → Option SetHandle} {record longer : List Exchange} {slot : Nat}
    {handle : SetHandle} (comes : ComesTo held record slot handle) (subset : record ⊆ longer) :
    ComesTo held longer slot handle := by
  rcases comes with first | ⟨shown, set, member, isRefresh, same⟩
  · exact Or.inl first
  · exact Or.inr ⟨shown, set, subset member, isRefresh, same⟩

namespace Tracked

variable {held : Nat → Option SetHandle} {start drawn : Nat} {record later earlier : List Exchange}
  {shown : Exposure} {slot : Nat} {handle : SetHandle} {number : UInt32}

theorem start_le (tracked : Tracked held start record drawn) : start ≤ drawn := by
  induction tracked with
  | start => exact Nat.le_refl _
  | fresh _ ge lt _ _ ih => exact ih.trans (ge.trans lt.le)
  | refresh _ ge lt _ _ _ ih => exact ih.trans (ge.trans lt.le)
  | answered _ _ _ ih => exact ih

/-- What happened before the last exchange is a record too. -/
theorem of_cons {exchange : Exchange} (tracked : Tracked held start (exchange :: record) drawn) :
    ∃ before ≤ drawn, Tracked held start record before := by
  cases tracked with
  | fresh before ge lt _ _ => exact ⟨_, ge.trans lt.le, before⟩
  | refresh before ge lt _ _ _ => exact ⟨_, ge.trans lt.le, before⟩
  | answered before _ _ => exact ⟨_, Nat.le_refl _, before⟩

theorem of_append (tracked : Tracked held start (later ++ earlier) drawn) :
    ∃ before ≤ drawn, Tracked held start earlier before := by
  induction later generalizing drawn with
  | nil => exact ⟨drawn, Nat.le_refl _, tracked⟩
  | cons exchange rest ih =>
      obtain ⟨middle, le, cut⟩ := tracked.of_cons
      obtain ⟨before, leMiddle, cutEarlier⟩ := ih cut
      exact ⟨before, leMiddle.trans le, cutEarlier⟩

/-- The left server is shown the set that was drawn last. -/
theorem of_asked (tracked : Tracked held start (.asked shown :: record) drawn) :
    ∃ before handle, Tracked held start record before ∧ shown.sets.left = some handle ∧
      before ≤ handle.number.toNat ∧ handle.number.toNat < drawn ∧
      (∀ slot set, shown.pending = some (.refresh slot set) → set.handle = handle) := by
  cases tracked with
  | fresh before ge lt sets noSlot =>
      refine ⟨_, _, before, congrArg Sides.left sets, ge, lt, ?_⟩
      intro slot set isRefresh
      rw [Exposure.slot?, isRefresh] at noSlot
      cases noSlot
  | refresh before ge lt _ sets pending =>
      refine ⟨_, _, before, congrArg Sides.left sets, ge, lt, ?_⟩
      intro slot set isRefresh
      rw [pending] at isRefresh
      cases isRefresh
      rfl

/-- Every query that was made is at the head of a record. -/
theorem of_mem (tracked : Tracked held start record drawn) (member : .asked shown ∈ record) :
    ∃ earlier before, before ≤ drawn ∧ earlier ⊆ record ∧
      Tracked held start (.asked shown :: earlier) before := by
  obtain ⟨later, earlier, rfl⟩ := List.append_of_mem member
  obtain ⟨before, le, cut⟩ := tracked.of_append
  refine ⟨earlier, before, le, ?_, cut⟩
  exact fun _ inEarlier => List.mem_append_right _ (List.mem_cons_of_mem _ inEarlier)

/-- The number of a set that the left server is shown is one of those that were drawn. -/
theorem leftNumber_bounds (tracked : Tracked held start record drawn)
    (member : .asked shown ∈ record) (isLeft : shown.leftNumber = some number) :
    start ≤ number.toNat ∧ number.toNat < drawn := by
  obtain ⟨earlier, bound, le, -, cut⟩ := tracked.of_mem member
  obtain ⟨before, handle, rest, isHandle, ge, lt, -⟩ := cut.of_asked
  rw [Exposure.leftNumber, isHandle] at isLeft
  cases isLeft
  exact ⟨rest.start_le.trans ge, lt.trans_le le⟩

/-- The set that the answers to a refresh put into its slot is the one that the left server was
shown. -/
theorem leftNumber_of_refresh (tracked : Tracked held start record drawn)
    (member : .asked shown ∈ record) {set : KeyedSet}
    (isRefresh : shown.pending = some (.refresh slot set)) :
    shown.leftNumber = some set.handle.number := by
  obtain ⟨earlier, bound, -, -, cut⟩ := tracked.of_mem member
  obtain ⟨before, handle, -, isHandle, -, -, drawnFor⟩ := cut.of_asked
  rw [Exposure.leftNumber, isHandle, drawnFor slot set isRefresh, Option.map_some]

/-- The left server was not shown the set of the last query before. -/
theorem leftNumber_ne (tracked : Tracked held start (.asked shown :: record) drawn)
    {other : Exposure} (member : .asked other ∈ record)
    (isLeft : shown.leftNumber = some number) : other.leftNumber ≠ some number := by
  obtain ⟨before, handle, rest, isHandle, ge, -, -⟩ := tracked.of_asked
  rw [Exposure.leftNumber, isHandle] at isLeft
  cases isLeft
  intro isOther
  exact absurd ge (Nat.not_le.mpr (rest.leftNumber_bounds member isOther).2)

/-- A set is drawn for one query. -/
theorem eq_of_leftNumber_eq (tracked : Tracked held start record drawn) {other : Exposure}
    (member : .asked shown ∈ record) (memberOther : .asked other ∈ record)
    (isLeft : shown.leftNumber = some number) (isLeftOther : other.leftNumber = some number) :
    shown = other := by
  induction record generalizing drawn with
  | nil => cases member
  | cons exchange rest ih =>
      obtain ⟨before, -, cut⟩ := tracked.of_cons
      rcases List.mem_cons.mp member with rfl | inRest
      · rcases List.mem_cons.mp memberOther with same | otherInRest
        · cases same
          rfl
        · exact absurd isLeftOther (tracked.leftNumber_ne otherInRest isLeft)
      · rcases List.mem_cons.mp memberOther with rfl | otherInRest
        · exact absurd isLeft (tracked.leftNumber_ne inRest isLeftOther)
        · exact ih cut inRest otherInRest

/-- The left server is shown each set once. -/
theorem nodup_leftNumbers (tracked : Tracked held start record drawn) :
    (leftNumbers record).Nodup := by
  apply nodup_filterMap_of_apart
  rintro later second between first earlier number rfl isSecond isFirst
  obtain ⟨shown, rfl, isLeft⟩ := Exchange.bind_shown?_eq_some.mp isSecond
  obtain ⟨other, rfl, isOther⟩ := Exchange.bind_shown?_eq_some.mp isFirst
  obtain ⟨_, -, cut⟩ := tracked.of_append
  exact cut.leftNumber_ne (List.mem_append_right _ List.mem_cons_self) isLeft isOther

/-- Answers that were put to use are to a query that was made. -/
theorem asked_of_answered (tracked : Tracked held start record drawn) {pending : PendingSet}
    (member : .answered pending ∈ record) :
    ∃ shown, .asked shown ∈ record ∧ shown.pending = some pending := by
  obtain ⟨later, earlier, rfl⟩ := List.append_of_mem member
  obtain ⟨before, -, cut⟩ := tracked.of_append
  cases cut with
  | answered _ inEarlier isPending =>
      exact ⟨_, List.mem_append_right _ (List.mem_cons_of_mem _ inEarlier), isPending⟩

/-- Everything in a slot came there in one of the two ways. -/
theorem comesTo_of_contents (tracked : Tracked held start record drawn)
    (isThere : contents held record slot = some handle) : ComesTo held record slot handle := by
  rcases Option.or_eq_some_iff.mp isThere with put | ⟨-, first⟩
  · obtain ⟨exchange, member, isPut⟩ := List.exists_of_findSome?_eq_some put
    obtain ⟨set, rfl, same⟩ := Exchange.put?_eq_some.mp isPut
    obtain ⟨shown, isAsked, isPending⟩ := tracked.asked_of_answered member
    exact Or.inr ⟨shown, set, isAsked, isPending, same⟩
  · exact Or.inl first

/-- The sets that are drawn for refreshes have later numbers than the first sets. -/
theorem start_le_of_refresh (tracked : Tracked held start record drawn)
    (member : .asked shown ∈ record) {set : KeyedSet}
    (isRefresh : shown.pending = some (.refresh slot set)) : start ≤ set.handle.number.toNat :=
  (tracked.leftNumber_bounds member (tracked.leftNumber_of_refresh member isRefresh)).1

theorem number_lt_of_comesTo (stocked : Stocked held start)
    (tracked : Tracked held start record drawn) (comes : ComesTo held record slot handle) :
    handle.number.toNat < drawn := by
  rcases comes with first | ⟨shown, set, member, isRefresh, rfl⟩
  · exact (stocked.early slot handle first).trans_le tracked.start_le
  · exact (tracked.leftNumber_bounds member (tracked.leftNumber_of_refresh member isRefresh)).2

/-- A set comes to one slot only. -/
theorem slot_eq_of_comesTo (stocked : Stocked held start)
    (tracked : Tracked held start record drawn) {place : Nat} {other : SetHandle}
    (comes : ComesTo held record slot handle) (comesOther : ComesTo held record place other)
    (same : handle.number = other.number) : slot = place := by
  rcases comes with first | ⟨shown, set, member, isRefresh, rfl⟩
  · have early := stocked.early slot handle first
    rcases comesOther with second | ⟨shown, set, member, isRefresh, rfl⟩
    · exact stocked.apart slot place handle other first second same
    · rw [same] at early
      exact absurd (tracked.start_le_of_refresh member isRefresh) (Nat.not_le.mpr early)
  · rcases comesOther with second | ⟨otherShown, otherSet, memberOther, isOther, rfl⟩
    · have early := stocked.early place other second
      rw [← same] at early
      exact absurd (tracked.start_le_of_refresh member isRefresh) (Nat.not_le.mpr early)
    · have isLeft := tracked.leftNumber_of_refresh member isRefresh
      have isLeftOther := tracked.leftNumber_of_refresh memberOther isOther
      rw [← same] at isLeftOther
      rw [tracked.eq_of_leftNumber_eq member memberOther isLeft isLeftOther, isOther] at isRefresh
      cases isRefresh
      rfl

/-- A set that was drawn for a query comes to no other slot than the one that the query uses
up. -/
theorem slot?_of_leftNumber (stocked : Stocked held start)
    (tracked : Tracked held start record drawn) (member : .asked shown ∈ record)
    (comes : ComesTo held record slot handle) (isLeft : shown.leftNumber = some handle.number) :
    shown.slot? = some slot := by
  rcases comes with first | ⟨other, set, memberOther, isRefresh, rfl⟩
  · have early := stocked.early slot handle first
    exact absurd (tracked.leftNumber_bounds member isLeft).1 (Nat.not_le.mpr early)
  · have isLeftOther := tracked.leftNumber_of_refresh memberOther isRefresh
    rw [tracked.eq_of_leftNumber_eq member memberOther isLeft isLeftOther, Exposure.slot?,
      isRefresh]
    rfl

/-- Queries that use up no set show both servers the drawn one. -/
theorem right_of_noSlot (tracked : Tracked held start (.asked shown :: record) drawn)
    (noSlot : shown.slot? = none) : shown.rightNumber = shown.leftNumber := by
  cases tracked with
  | fresh _ _ _ sets _ => rw [Exposure.rightNumber, Exposure.leftNumber, sets, Sides.both]
  | refresh _ _ _ _ _ isRefresh =>
      rw [Exposure.slot?, isRefresh] at noSlot
      cases noSlot

/-- Queries that use up the set in a slot show it to the right server. -/
theorem right_of_slot (tracked : Tracked held start (.asked shown :: record) drawn)
    (isSlot : shown.slot? = some slot) :
    ∃ used, contents held record slot = some used ∧ shown.rightNumber = some used.number := by
  cases tracked with
  | fresh _ _ _ _ noSlot =>
      rw [noSlot] at isSlot
      cases isSlot
  | refresh _ _ _ isThere sets isRefresh =>
      rw [Exposure.slot?, isRefresh] at isSlot
      cases isSlot
      refine ⟨_, isThere, ?_⟩
      rw [Exposure.rightNumber, sets, Option.map_some]

/-- The right server is shown a set that was drawn before, or just now. -/
theorem rightNumber_lt (stocked : Stocked held start) (tracked : Tracked held start record drawn)
    (member : .asked shown ∈ record) (isRight : shown.rightNumber = some number) :
    number.toNat < drawn := by
  obtain ⟨earlier, bound, le, -, cut⟩ := tracked.of_mem member
  cases isSlot : shown.slot? with
  | none =>
      rw [cut.right_of_noSlot isSlot] at isRight
      exact (tracked.leftNumber_bounds member isRight).2
  | some slot =>
      obtain ⟨used, isThere, isUsed⟩ := cut.right_of_slot isSlot
      rw [isUsed] at isRight
      cases isRight
      obtain ⟨before, handle, rest, -, ge, lt, -⟩ := cut.of_asked
      have early := number_lt_of_comesTo stocked rest (rest.comesTo_of_contents isThere)
      exact (early.trans_le (ge.trans lt.le)).trans_le le

/-- A set that comes to a slot is shown to the right server by queries that use up that slot
only. -/
theorem slot?_of_rightNumber (stocked : Stocked held start)
    (tracked : Tracked held start record drawn) (member : .asked shown ∈ record)
    (comes : ComesTo held record slot handle) (isRight : shown.rightNumber = some handle.number) :
    shown.slot? = some slot := by
  obtain ⟨earlier, bound, -, subset, cut⟩ := tracked.of_mem member
  cases isSlot : shown.slot? with
  | none =>
      rw [cut.right_of_noSlot isSlot] at isRight
      rw [← isSlot]
      exact slot?_of_leftNumber stocked tracked member comes isRight
  | some place =>
      obtain ⟨used, isThere, isUsed⟩ := cut.right_of_slot isSlot
      obtain ⟨before, -, rest, -⟩ := cut.of_asked
      have comesUsed := (rest.comesTo_of_contents isThere).mono subset
      rw [isUsed, Option.some.injEq] at isRight
      rw [slot_eq_of_comesTo stocked tracked comesUsed comes isRight]

/-- The right server is shown the set of an earlier query again if and only if both queries use
up one slot, and no other set than that one was put there last between the two. -/
theorem rightNumber_eq_iff (stocked : Stocked held start) {second first : Exposure}
    {between : List Exchange}
    (tracked :
      Tracked held start (later ++ .asked second :: (between ++ .asked first :: earlier)) drawn) :
    second.rightNumber = first.rightNumber ↔
      ∃ slot, second.slot? = some slot ∧ first.slot? = some slot ∧
        ∀ handle, between.findSome? (Exchange.put? slot) = some handle →
          first.rightNumber = some handle.number := by
  obtain ⟨_, -, atSecond⟩ := tracked.of_append
  obtain ⟨_, drawnLast, till, isLeft, ge, -⟩ := atSecond.of_asked
  obtain ⟨_, -, atFirst⟩ := till.of_append
  have member : Exchange.asked first ∈ between ++ .asked first :: earlier :=
    List.mem_append_right _ List.mem_cons_self
  constructor
  · intro same
    cases isSecond : second.slot? with
    | none =>
        -- The drawn set is later than anything that was shown before.
        rw [atSecond.right_of_noSlot isSecond, Exposure.leftNumber, isLeft] at same
        exact absurd ge (Nat.not_le.mpr (rightNumber_lt stocked till member same.symm))
    | some slot =>
        obtain ⟨used, isThere, isUsed⟩ := atSecond.right_of_slot isSecond
        rw [isUsed] at same
        have comes := till.comesTo_of_contents isThere
        refine ⟨slot, rfl, slot?_of_rightNumber stocked till member comes same.symm, ?_⟩
        intro handle isPut
        rw [contents_append, isPut, Option.some_or, Option.some.injEq] at isThere
        rw [isThere, same]
  · rintro ⟨slot, isSecond, isFirst, put⟩
    obtain ⟨used, isThere, isUsed⟩ := atSecond.right_of_slot isSecond
    obtain ⟨usedFirst, wasThere, isUsedFirst⟩ := atFirst.right_of_slot isFirst
    rw [contents_append, contents_asked, wasThere] at isThere
    cases isPut : between.findSome? (Exchange.put? slot) with
    | none =>
        rw [isPut, Option.none_or, Option.some.injEq] at isThere
        rw [isUsed, isUsedFirst, isThere]
    | some handle =>
        rw [isPut, Option.some_or, Option.some.injEq] at isThere
        rw [put handle isPut, isUsed, isThere]

/-- The right server is shown each set once, if the record is settled. -/
theorem nodup_rightNumbers (stocked : Stocked held start)
    (tracked : Tracked held start record drawn) (settled : Settled record) :
    (rightNumbers record).Nodup := by
  apply nodup_filterMap_of_apart
  rintro later second between first earlier number rfl isSecond isFirst
  obtain ⟨shown, rfl, isShown⟩ := Exchange.bind_shown?_eq_some.mp isSecond
  obtain ⟨other, rfl, isOther⟩ := Exchange.bind_shown?_eq_some.mp isFirst
  obtain ⟨slot, slotSecond, slotFirst, put⟩ :=
    (rightNumber_eq_iff stocked tracked).mp (isShown.trans isOther.symm)
  obtain ⟨handle, isPut⟩ := settled.replaced later shown between other earlier slot rfl slotSecond
    slotFirst
  -- The set that was put back in between was in the slot before.
  obtain ⟨_, -, cut⟩ := tracked.of_append
  obtain ⟨_, -, till, -⟩ := cut.of_asked
  obtain ⟨_, -, atFirst⟩ := till.of_append
  obtain ⟨used, wasThere, isUsed⟩ := atFirst.right_of_slot slotFirst
  have same : handle.number = used.number := Option.some.inj ((put handle isPut).symm.trans isUsed)
  obtain ⟨exchange, inBetween, isExchange⟩ := List.exists_of_findSome?_eq_some isPut
  obtain ⟨set, rfl, rfl⟩ := Exchange.put?_eq_some.mp isExchange
  rcases Option.or_eq_some_iff.mp wasThere with wasPut | ⟨-, wasFirst⟩
  · obtain ⟨exchange, inEarlier, isExchange⟩ := List.exists_of_findSome?_eq_some wasPut
    obtain ⟨usedSet, rfl, rfl⟩ := Exchange.put?_eq_some.mp isExchange
    have once := settled.once
    rw [List.filterMap_append, List.nodup_append, List.filterMap_cons_none rfl,
      List.filterMap_append, List.nodup_append, List.filterMap_cons_none rfl] at once
    exact once.2.1.2.2 _ (List.mem_filterMap.mpr ⟨_, inBetween, rfl⟩) _
      (List.mem_filterMap.mpr ⟨_, inEarlier, rfl⟩) same
  · obtain ⟨asked, inRecord, isPending⟩ :=
      till.asked_of_answered (List.mem_append_left _ inBetween)
    have early := stocked.early slot used wasFirst
    rw [← same] at early
    exact absurd (till.start_le_of_refresh inRecord isPending) (Nat.not_le.mpr early)

end Tracked

end PrivateRetrieval
