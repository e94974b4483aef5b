/-
# Layers after an update

An update places the rows that are new in layers, and then asks for one missing hint after the
other. Whatever becomes of the hints, the layers fit the left server's table afterwards. If the
update succeeds, all of them are ready, and it only stops early at a hint that is not given: every
hint that arrives is accepted.

The loop that asks for missing hints ends, because every hint that arrives makes a layer ready that
was not, and no layer ceases to be ready. So it gets no hint twice, and it asks at most once more
than there are slots. The bound that it is given is never what ends it.
-/

import PrivateRetrieval.Proofs.Client.CatchingUp
import PrivateRetrieval.Proofs.Layers.Readiness
import PrivateRetrieval.Proofs.Server.Epochs
import PrivateRetrieval.Proofs.Session.Frame

namespace PrivateRetrieval

/-- Once an honest update was processed, the layers fit rows that the server's table continues, and
the update counts the rows that are missing. -/
theorem StoreClient.Retains.exists_fits {good : Client → Table → Prop}
    {client after : StoreClient} {known server : KeyServer} {history more : List (Entry Row)}
    {count : Nat} (retains : client.Retains after server count)
    (agrees : client.AgreesWith known) (keeps : known.Keeps history)
    (keepsServer : server.Keeps (history ++ more))
    (fits : server.log.defragmented = known.log.defragmented →
      client.layers.Fits good known.table) :
    ∃ before : Table, after.layers.Fits good before ∧ before.Precedes server.table ∧
      before.rowCount + count = server.table.rowCount := by
  have rowCount : server.positions.rowCount = server.table.rowCount :=
    keepsServer.locates.rowCount.trans (Table.rowCount_eq _).symm
  rcases retains with ⟨isReset, isCount⟩ | ⟨isSame, notFurther, isCount⟩
  · refine ⟨.empty 0, ?_, Table.precedes_empty 0 _, ?_⟩
    · rw [isReset]
      exact Layers.fits_nothing rfl rfl 0
    · exact (Nat.zero_add count).trans (isCount.trans rowCount)
  · have sameEnd : client.log.defragmented = known.log.defragmented := by
      rw [agrees.log]
      rfl
    have still := notFurther.symm.trans sameEnd
    refine ⟨known.table, ?_, keeps.precedes keepsServer still, ?_⟩
    · rw [isSame]
      exact fits still
    · rw [← rowCount, ← isCount, agrees.positions, keeps.locates.rowCount, Table.rowCount_eq]

namespace Session

variable {σ : Type} [Replica σ]

/-- The loop that asks for missing hints until none is missing or one cannot be fetched. The slots
are those whose hints were fetched, in that order. -/
inductive Refetches : Session σ → List Nat → Outcome Unit → Session σ → Prop
  | done {session after : Session σ} :
      session.follow Layers.missing = (.ok false, after) → Refetches session [] (.ok ()) after
  | failed {session after : Session σ} {failure : Failure} :
      session.follow Layers.missing = (.error failure, after) →
      Refetches session [] (.error failure) after
  | fetched {session next after : Session σ} {slot : Nat} {slots : List Nat}
      {result : Outcome Unit} :
      session.follow Layers.missing = (.ok true, next) →
      (session.client.layers.missing session.tape).2.1.pending = some slot →
      Refetches next slots result after → Refetches session (slot :: slots) result after

/-- The loop ends, and fetches no hint twice. Each hint that it fetches is for a layer that was not
ready, so there are not more of them than there were such layers. -/
def RefetchesOnce (session : Session σ) (result : Outcome Unit) (after : Session σ) : Prop :=
  ∃ slots, Refetches session slots result after ∧ slots.Nodup ∧
    slots.length ≤ session.client.layers.unreadyCount ∧
    ∀ index ∈ slots, ∃ slot, session.client.layers.slots[index]? = some slot ∧
      slot.isUnready = true

theorem RefetchesOnce.done {session after : Session σ}
    (followed : session.follow Layers.missing = (.ok false, after)) :
    RefetchesOnce session (.ok ()) after :=
  ⟨[], .done followed, .nil, Nat.zero_le _, List.forall_mem_nil _⟩

theorem RefetchesOnce.failed {session after : Session σ} {failure : Failure}
    (followed : session.follow Layers.missing = (.error failure, after)) :
    RefetchesOnce session (.error failure) after :=
  ⟨[], .failed followed, .nil, Nat.zero_le _, List.forall_mem_nil _⟩

/-- A round before the loop. The layer that it makes ready is not fetched again, since no layer
ceases to be ready. -/
theorem RefetchesOnce.fetched {session next after : Session σ} {result : Outcome Unit}
    {request : LayerHintRequest} {layers : Layers} {tape : Tape} {index : Nat}
    (missing : session.client.layers.missing session.tape = (some request, layers, tape))
    (notMore : layers.unreadyCount ≤ session.client.layers.unreadyCount)
    (unready : ∀ (index : Nat) (slot : Slot), layers.slots[index]? = some slot →
      slot.isUnready = true → session.client.layers.slots[index]? = some slot)
    (followed : session.follow Layers.missing = (.ok true, next))
    (filled : layers.Fills next.client.layers index) (rest : RefetchesOnce next result after) :
    RefetchesOnce session result after := by
  obtain ⟨slots, refetches, distinct, few, among⟩ := rest
  have fewer : next.client.layers.unreadyCount < session.client.layers.unreadyCount :=
    filled.fewer.trans_le notMore
  refine ⟨index :: slots, ?_, ?_, Nat.succ_le_of_lt (few.trans_lt fewer), ?_⟩
  · refine .fetched followed ?_ refetches
    rw [missing]
    exact filled.pending
  · refine List.nodup_cons.mpr ⟨fun member => ?_, distinct⟩
    obtain ⟨slot, held, isUnready⟩ := among index member
    exact (filled.others index slot held isUnready).1 rfl
  · refine List.forall_mem_cons.mpr ⟨?_, fun other member => ?_⟩
    · obtain ⟨slot, held, isUnready⟩ := filled.unready
      exact ⟨slot, unready index slot held isUnready, isUnready⟩
    · obtain ⟨slot, held, isUnready⟩ := among other member
      have asked := (filled.others other slot held isUnready).2
      exact ⟨slot, unready other slot asked isUnready, isUnready⟩

/-- A call stopped at a hint that the left replica did not give. A layer waits for it. -/
def Stopped (standsFor : σ → KeyServer → Prop) (server : KeyServer) (failure : Failure)
    (session : Session σ) : Prop :=
  ∃ request replica, session.client.layers.Awaits request ∧ standsFor replica server ∧
    (Replica.layerHint request replica).1 = .error failure

/-- What has become of the client after an update that the server answered, whether hints were lost
or not: it agrees with the server, and the layers fit the server's table. They are ready unless the
update stopped at a hint. -/
structure TakesUp (standsFor : σ → KeyServer → Prop) (good : Client → Table → Prop)
    (server : KeyServer) (start : Session σ) (result : Outcome Unit) (after : Session σ) :
    Prop where
  stands : standsFor after.servers.left server
  right : after.servers.right = start.servers.right
  agrees : after.client.AgreesWith server
  fits : after.client.layers.Fits good server.table
  loop : ∀ begun, start.catchUp = (.ok (), begun) → RefetchesOnce begun result after
  ready : result = .ok () → after.client.layers.Ready
  stopped : ∀ failure, result = .error failure → after.Stopped standsFor server failure

/-- A step on the layers that asks for no hint is all that happens. -/
theorem follow_of_none {session : Session σ}
    {step : Layers → Tape → Option LayerHintRequest × Layers × Tape} {layers : Layers}
    {tape : Tape} (stepped : step session.client.layers session.tape = (none, layers, tape)) :
    session.follow step =
      (.ok false, { session with client := { session.client with layers }, tape }) := by
  simp only [follow, stepped]

/-- The hint that a step on the layers asks for is fetched. -/
theorem follow_of_some {session after : Session σ}
    {step : Layers → Tape → Option LayerHintRequest × Layers × Tape} {layers : Layers}
    {tape : Tape} {request : LayerHintRequest} {result : Outcome Unit}
    (stepped : step session.client.layers session.tape = (some request, layers, tape))
    (fetched : fetchHint { session with client := { session.client with layers }, tape } request =
      (result, after)) :
    session.follow step = (result.map fun _ => true, after) := by
  simp only [follow, stepped, fetched]

/-- An update succeeds if the hint that it asks for is given and accepted, and no other hint is
missing then. -/
theorem update_of_hint {session : Session σ} {update : KeyUpdate} {left last : σ} {count : Nat}
    {client : StoreClient} {request : LayerHintRequest} {hint : Hint} {asking layers : Layers}
    {between later : Tape}
    (reply : Replica.keyUpdate session.client.updateRequest session.servers.left =
      (.ok update, left))
    (processed : session.client.process update = (.ok count, client)) (more : count ≠ 0)
    (stepped : client.layers.update count update.rowLength session.tape =
      (some request, asking, between))
    (given : Replica.layerHint request left = (.ok hint, last))
    (installed : asking.installHint hint between = (.ok (), layers, later))
    (settled : layers.missing later = (none, layers, later)) :
    ∃ statistics, session.update =
      (.ok (), { client := { client with layers, statistics }
                 servers := { session.servers with left := last }
                 tape := later }) := by
  set asked : Session σ := { client := { client with layers := asking }
                             servers := { session.servers with left }
                             tape := between }
  have givenAsked : Replica.layerHint request asked.servers.left = (.ok hint, last) := given
  obtain ⟨statistics, fetched⟩ := fetchHint_of_hint givenAsked installed
  set served : Session σ := { client := { client with layers, statistics }
                              servers := { session.servers with left := last }
                              tape := later }
  have caughtUp : session.catchUp = (.ok (), served) := by
    rw [catchUp_eq_placeRows reply processed, placeRows, if_neg more,
      follow_of_some stepped fetched]
    rfl
  have done : served.follow Layers.missing = (.ok false, served) := follow_of_none settled
  refine ⟨statistics, ?_⟩
  rw [Session.update, caughtUp]
  show fetchMissing (_ + 1) served = _
  rw [fetchMissing, done]

section Faithful

variable {standsFor : σ → KeyServer → Prop} (faithful : Replica.Faithful standsFor)
  {good : Client → Table → Prop} (isNew : Client.HoldsOfNew good)
  {session : Session σ} {server : KeyServer}
include faithful isNew

/-- A hint that is fetched makes a layer ready. If it is not given, the layers fit as well as
before. -/
theorem fits_fetchHint {after : Session σ} {result : Outcome Unit}
    (stands : standsFor session.servers.left server)
    (fits : session.client.layers.Fits good server.table) {request : LayerHintRequest}
    (awaits : session.client.layers.Awaits request)
    (fetched : session.fetchHint request = (result, after)) :
    after.client.layers.Fits good server.table ∧
      (result = .ok () ∧ (∃ index, session.client.layers.Fills after.client.layers index) ∨
        ∃ failure, result = .error failure ∧ after.Stopped standsFor server failure) := by
  obtain ⟨honest, -⟩ := faithful.layerHint stands request
  rcases reply : Replica.layerHint request session.servers.left with ⟨failure | hint, left⟩
  · obtain ⟨statistics, refused⟩ := fetchHint_of_refused reply
    rw [refused] at fetched
    cases fetched
    exact ⟨fits, Or.inr ⟨failure, rfl, request, session.servers.left, awaits, stands,
      congrArg Prod.fst reply⟩⟩
  · rw [reply] at honest
    rcases honest with ⟨failure, lost⟩ | isHint
    · cases lost
    obtain ⟨layers, tape, installed, fitsAfter, fills⟩ :=
      fits.installHint isNew awaits isHint.symm session.tape
    obtain ⟨statistics, given⟩ := fetchHint_of_hint reply installed
    rw [given] at fetched
    cases fetched
    exact ⟨fitsAfter, Or.inl ⟨rfl, fills⟩⟩

/-- Rows that continue the table that the layers fit are placed, whether the hint that is needed
arrives or not. -/
theorem fits_placeRows {after : Session σ} {result : Outcome Unit}
    (stands : standsFor session.servers.left server) {before : Table}
    (fits : session.client.layers.Fits good before) (precedes : before.Precedes server.table)
    {count : Nat} (more : before.rowCount + count = server.table.rowCount)
    (done : session.placeRows count server.table.rowLength = (result, after)) :
    after.client.layers.Fits good server.table ∧
      ∀ failure, result = .error failure → after.Stopped standsFor server failure := by
  rw [placeRows] at done
  split at done
  · rename_i nothing
    cases done
    refine ⟨fits.of_precedes precedes (by omega), fun failure failed => ?_⟩
    cases failed
  · rename_i something
    obtain ⟨request, updated, later, stepped, fitsUpdated, awaits⟩ :=
      fits.update isNew precedes (Nat.pos_of_ne_zero something) more session.tape
    cases request with
    | none =>
        rw [follow_of_none stepped] at done
        cases done
        refine ⟨fitsUpdated, fun failure failed => ?_⟩
        cases failed
    | some request =>
        rcases fetched : fetchHint { session with
            client := { session.client with layers := updated }, tape := later } request with
          ⟨answer, next⟩
        rw [follow_of_some stepped fetched] at done
        obtain ⟨fitsNext, ⟨rfl, -⟩ | ⟨failure, rfl, stopped⟩⟩ := fits_fetchHint faithful isNew
          (by exact stands) fitsUpdated (awaits request rfl) fetched
        · cases done
          refine ⟨fitsNext, fun failure failed => ?_⟩
          cases failed
        · cases done
          refine ⟨fitsNext, fun other failed => ?_⟩
          cases failed
          exact stopped

/-- The bounded loop is the loop, if the bound is above the number of layers that are not ready.
Afterwards the layers fit, and all of them are ready unless a hint was not given. -/
theorem refetchesOnce_fetchMissing (stands : standsFor session.servers.left server)
    (fits : session.client.layers.Fits good server.table) {allowed : Nat}
    (enough : session.client.layers.unreadyCount < allowed) {result : Outcome Unit}
    {after : Session σ} (fetched : fetchMissing allowed session = (result, after)) :
    RefetchesOnce session result after ∧ after.client.layers.Fits good server.table ∧
      (result = .ok () → after.client.layers.Ready) ∧
      ∀ failure, result = .error failure → after.Stopped standsFor server failure := by
  induction allowed generalizing session with
  | zero => exact absurd enough (Nat.not_lt_zero _)
  | succ allowed ih =>
      rw [fetchMissing] at fetched
      rcases fits.missing isNew session.tape with ⟨layers, tape, missing, fitsMade, ready⟩ |
        ⟨request, layers, tape, missing, fitsAsked, awaits, notMore, unready⟩
      · have followed := follow_of_none missing
        rw [followed] at fetched
        cases fetched
        refine ⟨.done followed, fitsMade, fun _ => ready, fun failure failed => ?_⟩
        cases failed
      · set asked : Session σ :=
          { session with client := { session.client with layers }, tape } with isAsked
        have standsAsked : standsFor asked.servers.left server := stands
        rcases replied : asked.fetchHint request with ⟨reply, next⟩
        have followed := follow_of_some missing replied
        rw [followed] at fetched
        obtain ⟨fitsNext, ⟨rfl, index, filled⟩ | ⟨failure, rfl, stopped⟩⟩ :=
          fits_fetchHint faithful isNew standsAsked fitsAsked awaits replied
        · have standsNext : standsFor next.servers.left server := by
            have alike := alike_fetchHint faithful asked request
            rw [replied] at alike
            exact alike.left server standsAsked
          have fewer : next.client.layers.unreadyCount < session.client.layers.unreadyCount :=
            filled.fewer.trans_le notMore
          obtain ⟨loop, rest⟩ := ih standsNext fitsNext (by omega) fetched
          exact ⟨.fetched missing notMore unready followed filled loop, rest⟩
        · cases fetched
          refine ⟨.failed followed, fitsNext, fun isOk => ?_, fun other failed => ?_⟩
          · cases isOk
          · cases failed
            exact stopped

/-- An update whose entries were taken up places the rows, and makes the layers ready unless a hint
is not given. -/
theorem fits_update {update : KeyUpdate} {left : σ} {count : Nat} {client : StoreClient}
    (reply : Replica.keyUpdate session.client.updateRequest session.servers.left =
      (.ok update, left)) (stands : standsFor left server)
    (processed : session.client.process update = (.ok count, client))
    (rowLength : update.rowLength = server.table.rowLength) {before : Table}
    (fits : client.layers.Fits good before) (precedes : before.Precedes server.table)
    (more : before.rowCount + count = server.table.rowCount) {result : Outcome Unit}
    {after : Session σ} (updated : session.update = (result, after)) :
    (∀ begun, session.catchUp = (.ok (), begun) → RefetchesOnce begun result after) ∧
      after.client.layers.Fits good server.table ∧
      (result = .ok () → after.client.layers.Ready) ∧
      ∀ failure, result = .error failure → after.Stopped standsFor server failure := by
  set start : Session σ := { session with client, servers := { session.servers with left } }
  have placed : session.catchUp = start.placeRows count server.table.rowLength := by
    rw [← rowLength]
    exact catchUp_eq_placeRows reply processed
  have standsStart : standsFor start.servers.left server := stands
  have alike := alike_placeRows faithful start count server.table.rowLength
  rw [← placed] at alike
  rw [Session.update] at updated
  rcases caughtUp : session.catchUp with ⟨failure | _, begun⟩
  · obtain ⟨fitsBegun, stopped⟩ := fits_placeRows faithful isNew standsStart fits precedes more
      (placed.symm.trans caughtUp)
    rw [caughtUp] at updated
    cases updated
    refine ⟨fun other isBegun => ?_, fitsBegun, fun isOk => ?_, stopped⟩
    · cases isBegun
    · cases isOk
  · obtain ⟨fitsBegun, -⟩ := fits_placeRows faithful isNew standsStart fits precedes more
      (placed.symm.trans caughtUp)
    rw [caughtUp] at updated alike
    obtain ⟨loop, rest⟩ := refetchesOnce_fetchMissing faithful isNew
      (alike.left server standsStart) fitsBegun (Nat.lt_succ_of_le List.countP_le_length) updated
    refine ⟨fun other isBegun => ?_, rest⟩
    cases isBegun
    exact loop

/-- An update that the server answers is taken up, if the client agreed with the server as it was
some time ago. The layers need to fit the rows of that time only if none was moved since. -/
theorem takesUp_of_answered {known : KeyServer} {history more : List (Entry Row)}
    (stands : standsFor session.servers.left server) (agrees : session.client.AgreesWith known)
    (keeps : known.Keeps history) (keepsServer : server.Keeps (history ++ more))
    (earlier : known.log.defragmented ≤ server.log.defragmented)
    (fits : server.log.defragmented = known.log.defragmented →
      session.client.layers.Fits good known.table) {update : KeyUpdate}
    (made : server.keyUpdate session.client.updateRequest = .ok update) :
    TakesUp standsFor good server session session.update.1 session.update.2 := by
  obtain ⟨honest, standsLater⟩ := faithful.keyUpdate stands session.client.updateRequest
  rcases reply : Replica.keyUpdate session.client.updateRequest session.servers.left with
    ⟨answer, left⟩
  rw [reply] at honest standsLater
  obtain rfl : answer = .ok update := honest.trans made
  have notBehind : session.client.log.defragmented ≤ server.log.defragmented := by
    rw [agrees.log]
    exact earlier
  obtain ⟨count, client, processed, agreesNow, retains⟩ :=
    StoreClient.process_keyUpdate ((agrees.knows keeps).append more) keepsServer notBehind made
  obtain ⟨before, fitsBefore, precedes, counts⟩ :=
    retains.exists_fits agrees keeps keepsServer fits
  obtain ⟨-, -, rowLength, -, -, -⟩ := KeyUpdate.ofLog_eq_ok made
  obtain ⟨loop, fitsAfter, ready, stopped⟩ := fits_update faithful isNew reply standsLater
    processed rowLength fitsBefore precedes counts
    (show session.update = (session.update.1, session.update.2) from rfl)
  have alike := alike_update faithful reply processed
  exact
    { stands := alike.left server standsLater
      right := alike.right
      agrees := ⟨alike.log.trans agreesNow.log, alike.positions.trans agreesNow.positions⟩
      fits := fitsAfter
      loop, ready, stopped }

end Faithful

end Session

end PrivateRetrieval
