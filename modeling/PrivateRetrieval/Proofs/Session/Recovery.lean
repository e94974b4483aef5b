/-
# Recovery from lost hints

A hint that cannot be fetched ends a call early. The log and the positions have moved on by then,
and a layer stays without a client. Before the next call the server may add rows, delete them and
compact its log, and the next call may give the rows of that layer to another one, or drop all
layers.

Nothing has to be repaired for that. What a client knows of the log, its positions and its layers
belong together after every call, whatever became of it, and a layer that has a client has the
rows that the client was made for: if rows may have moved, all layers are dropped. So a call asks
for the hints that are missing, and when it succeeds, every layer has a client whose hints are sums
of the rows that the layer has on the server now. It does succeed, unless the server's log is too
long to be sent or a hint is not given.

The invariant names the server as the client has taken it up last. The layers fit the table of that
server.
-/

import PrivateRetrieval.Proofs.Layers.Arrangement
import PrivateRetrieval.Proofs.Session.Placing

namespace PrivateRetrieval

/-- What a client knows belongs together: the positions are those of its log, there are as many rows
in layers as the positions count, and the layers lie next to each other and have all of them. -/
structure StoreClient.InOrder (client : StoreClient) : Prop where
  positions : client.positions = Positions.empty.replay client.log.entries
  total : client.layers.total = client.positions.rowCount
  spans : Layers.Spans 0 client.layers.active client.layers.total

namespace Session

section Statements

variable {σ : Type} [Replica σ]

/-- Sessions whose left replica may lose hints, and the servers that it stands for. A session begins
with a new client and a new server, with rows of a positive length. The server carries out calls,
and the client updates or begins anew, in any order and with any result. The right replica is not
asked for anything. -/
inductive Faltering (standsFor : σ → KeyServer → Prop) : Session σ → KeyServer → Prop
  | start {session : Session σ} {configuration : ClientConfiguration}
      {serverConfiguration : ServerConfiguration} {keys : List Key} {rows : List Row}
      {server : KeyServer} : StoreClient.make configuration = .ok session.client →
      (∀ row ∈ rows, 0 < row.length) →
      KeyServer.make serverConfiguration keys rows = .ok server →
      standsFor session.servers.left server → Faltering standsFor session server
  | change {session : Session σ} {server : KeyServer} {call : KeyServer.Call} {left : σ}
      (right : σ) : Faltering standsFor session server → call.HasContent →
      standsFor left (call.perform server).2 →
      Faltering standsFor { session with servers := ⟨left, right⟩ } (call.perform server).2
  | update {session : Session σ} {server : KeyServer} :
      Faltering standsFor session server → Faltering standsFor session.update.2 server
  | restart {session : Session σ} {server : KeyServer} :
      Faltering standsFor session server → Faltering standsFor session.restart.2 server

/-- What comes of a call that begins to update in one session and ends in another one. -/
structure Recovers (standsFor : σ → KeyServer → Prop) (server : KeyServer) (start : Session σ)
    (result : Outcome Unit) (after : Session σ) : Prop where
  inOrder : after.client.InOrder
  /-- If the call gets as far as to ask for missing hints, then the loop ends, and each hint that it
  fetches is for another one of the layers that have rows and no client. -/
  loop : ∀ begun, start.catchUp = (.ok (), begun) → ∃ slots,
    Refetches begun slots result after ∧ slots.Nodup ∧
      slots.length ≤ begun.client.layers.active.length ∧
      ∀ index ∈ slots, ∃ layer,
        (begun.client.layers.slots[index]?).bind Slot.active? = some layer ∧ layer.client = none
  /-- If the call succeeds, every layer with rows has a client of its scheme, and the hints of the
  client are sums of the rows that the layer has on the server. -/
  ready : result = .ok () → ∀ layer ∈ after.client.layers.active, ∃ client range,
    layer.client = some client ∧ client.scheme = layer.scheme ∧
      server.table.slice layer.first layer.last = .ok range ∧ client.SumsOver range
  /-- If the call fails, the server does not answer, or a layer waits for a hint that is not
  given. -/
  failed : ∀ failure, result = .error failure →
    server.keyUpdate start.client.updateRequest = .error failure ∨
      after.Stopped standsFor server failure

end Statements

variable {σ : Type}

/-- A client agrees with a server as it was when it kept the beginning of the history that the
server keeps for which the left replica stands now, and the layers fit the table that the server had
then. -/
structure Tracks (standsFor : σ → KeyServer → Prop) (session : Session σ)
    (server known : KeyServer) : Prop where
  stands : standsFor session.servers.left server
  agrees : session.client.AgreesWith known
  keeps : ∃ history more, known.Keeps history ∧ server.Keeps (history ++ more)
  earlier : known.log.defragmented ≤ server.log.defragmented
  layers : session.client.layers.Fits Client.SumsOver known.table

namespace Tracks

variable {standsFor : σ → KeyServer → Prop} {session : Session σ} {server known : KeyServer}

theorem inOrder (tracks : session.Tracks standsFor server known) : session.client.InOrder := by
  obtain ⟨history, more, keeps, -⟩ := tracks.keeps
  refine ⟨?_, ?_, tracks.layers.tile.spans⟩
  · rw [tracks.agrees.positions, tracks.agrees.log]
    exact StoreClient.positions_eq keeps
  · rw [tracks.layers.total, tracks.agrees.positions, keeps.locates.rowCount, Table.rowCount_eq]

/-- A new client, and one that forgets what it knows, has taken up a server without rows. -/
theorem of_forgotten (stands : standsFor session.servers.left server)
    {history : List (Entry Row)} (keeps : server.Keeps history)
    (nothing : session.client.KnowsNothing) :
    session.Tracks standsFor server (KeyServer.empty {}) where
  stands := stands
  agrees := nothing.agreesWith
  keeps := ⟨[], history, KeyServer.keeps_empty {}, keeps⟩
  earlier := Nat.zero_le _
  layers := Layers.fits_nothing nothing.slots nothing.total 0

/-- Calls of the server are not seen by the client. -/
theorem change (tracks : session.Tracks standsFor server known) {call : KeyServer.Call}
    (content : call.HasContent) {left : σ} (stands : standsFor left (call.perform server).2)
    (right : σ) :
    Tracks standsFor { session with servers := ⟨left, right⟩ } (call.perform server).2 known := by
  obtain ⟨history, more, keeps, keepsServer⟩ := tracks.keeps
  obtain ⟨added, keepsAfter, later⟩ := keepsServer.performed content
  rw [List.append_assoc] at keepsAfter
  exact ⟨stands, tracks.agrees, ⟨history, more ++ added, keeps, keepsAfter⟩,
    tracks.earlier.trans later, tracks.layers⟩

variable [Replica σ] (faithful : Replica.Faithful standsFor)
include faithful

/-- An update that the server refuses leaves the client as it was. -/
theorem update_of_refused (tracks : session.Tracks standsFor server known) {failure : Failure}
    (made : server.keyUpdate session.client.updateRequest = .error failure) :
    session.update.2.Tracks standsFor server known ∧
      Recovers standsFor server session session.update.1 session.update.2 := by
  obtain ⟨honest, stands⟩ := faithful.keyUpdate tracks.stands session.client.updateRequest
  rcases reply : Replica.keyUpdate session.client.updateRequest session.servers.left with
    ⟨answer, left⟩
  rw [reply] at honest stands
  obtain rfl : answer = .error failure := honest.trans made
  obtain ⟨caughtUp, same⟩ := Session.update_of_refused reply
  have tracksAfter : session.update.2.Tracks standsFor server known := by
    rw [same, caughtUp]
    exact ⟨stands, tracks.agrees, tracks.keeps, tracks.earlier, tracks.layers⟩
  refine ⟨tracksAfter, tracksAfter.inOrder, fun begun isBegun => ?_, fun isOk => ?_,
    fun other failed => Or.inl ?_⟩
  · rw [caughtUp] at isBegun
    cases isBegun
  · rw [same, caughtUp] at isOk
    cases isOk
  · rw [same, caughtUp] at failed
    cases failed
    exact made

/-- An update that the server answers is taken up, whether hints are lost afterwards or not. -/
theorem update_of_answered (tracks : session.Tracks standsFor server known) {update : KeyUpdate}
    (made : server.keyUpdate session.client.updateRequest = .ok update) :
    session.update.2.Tracks standsFor server server ∧
      Recovers standsFor server session session.update.1 session.update.2 := by
  obtain ⟨history, more, keeps, keepsServer⟩ := tracks.keeps
  have takesUp := takesUp_of_answered faithful Client.holdsOfNew_sumsOver tracks.stands
    tracks.agrees keeps keepsServer tracks.earlier (fun _ => tracks.layers) made
  have tracksAfter : session.update.2.Tracks standsFor server server :=
    { stands := takesUp.stands
      agrees := takesUp.agrees
      keeps := ⟨history ++ more, [], keepsServer, by rwa [List.append_nil]⟩
      earlier := Nat.le_refl _
      layers := takesUp.fits }
  refine ⟨tracksAfter, tracksAfter.inOrder, fun begun isBegun => ?_, fun isOk layer member => ?_,
    fun failure failed => Or.inr (takesUp.stopped failure failed)⟩
  · obtain ⟨slots, refetches, distinct, few, among⟩ := takesUp.loop begun isBegun
    refine ⟨slots, refetches, distinct, few.trans (Layers.unreadyCount_le_length_active _),
      fun index member => ?_⟩
    obtain ⟨slot, held, unready⟩ := among index member
    rw [held, Option.bind_some]
    exact Slot.isUnready_iff.mp unready
  · obtain ⟨client, isClient⟩ := takesUp.ready isOk layer member
    obtain ⟨index, slot, held, active⟩ := Layers.exists_slot_of_mem_active member
    obtain ⟨range, given, sums, scheme⟩ :=
      (takesUp.fits.tile.of_active? held active).1 client isClient
    exact ⟨client, range, isClient, scheme, given, sums⟩

theorem update (tracks : session.Tracks standsFor server known) :
    (∃ known, session.update.2.Tracks standsFor server known) ∧
      Recovers standsFor server session session.update.1 session.update.2 := by
  cases made : server.keyUpdate session.client.updateRequest with
  | error failure =>
      obtain ⟨tracksAfter, recovers⟩ := tracks.update_of_refused faithful made
      exact ⟨⟨known, tracksAfter⟩, recovers⟩
  | ok update =>
      obtain ⟨tracksAfter, recovers⟩ := tracks.update_of_answered faithful made
      exact ⟨⟨server, tracksAfter⟩, recovers⟩

theorem restart (tracks : session.Tracks standsFor server known) :
    (∃ known, session.restart.2.Tracks standsFor server known) ∧
      Recovers standsFor server { session with client := session.client.forget .empty }
        session.restart.1 session.restart.2 := by
  obtain ⟨history, more, -, keepsServer⟩ := tracks.keeps
  have forgotten : Tracks standsFor { session with client := session.client.forget .empty }
      server (KeyServer.empty {}) :=
    of_forgotten tracks.stands keepsServer session.client.knowsNothing_forget
  exact forgotten.update faithful

end Tracks

variable [Replica σ] {standsFor : σ → KeyServer → Prop}

/-- In every session whose left replica may lose hints, the client has taken up some state of the
server. -/
theorem Faltering.tracks (faithful : Replica.Faithful standsFor) {session : Session σ}
    {server : KeyServer} (faltering : Faltering standsFor session server) :
    ∃ known, session.Tracks standsFor server known := by
  induction faltering with
  | start made positive madeServer stands =>
      exact ⟨_, .of_forgotten stands (KeyServer.keeps_make positive madeServer)
        (StoreClient.knowsNothing_of_make made)⟩
  | change right _ content stands ih =>
      obtain ⟨known, tracks⟩ := ih
      exact ⟨known, tracks.change content stands right⟩
  | update _ ih =>
      obtain ⟨known, tracks⟩ := ih
      exact (tracks.update faithful).1
  | restart _ ih =>
      obtain ⟨known, tracks⟩ := ih
      exact (tracks.restart faithful).1

/-- Whatever calls of a client and its server came before, and whichever hints were lost: what the
client knows belongs together, before and after the next update or restart, the loop that asks for
missing hints ends and fetches no hint twice, and if the call succeeds, every layer has a client
whose hints are sums of the rows that the layer has on the server. Only the server and lost hints
keep a call from success. -/
theorem Faltering.recovers (faithful : Replica.Faithful standsFor) {session : Session σ}
    {server : KeyServer} (faltering : Faltering standsFor session server) :
    session.client.InOrder ∧
      Recovers standsFor server session session.update.1 session.update.2 ∧
      Recovers standsFor server { session with client := session.client.forget .empty }
        session.restart.1 session.restart.2 := by
  obtain ⟨known, tracks⟩ := faltering.tracks faithful
  exact ⟨tracks.inOrder, (tracks.update faithful).2, (tracks.restart faithful).2⟩

/-- The hint of a layer of three rows is lost, and the server compacts its log before the hint is
asked for again. The next update finds one row left, in a layer that needs no hint. -/
theorem recovers_after_compaction :
    ∃ session server, Faltering PreparedReplica.OnlyLoses session server ∧
      session.client.InOrder ∧ session.client.layers.total = 3 ∧
      session.client.layers.unreadyCount = 1 ∧ server.rowCount = 1 ∧
      session.update.1 = .ok () ∧ session.update.2.client.layers.total = 1 ∧
      Recovers PreparedReplica.OnlyLoses server session session.update.1 session.update.2 := by
  have works : ((KeyServer.make { ratio := .finite 1 } [1] [[1]]).toOption.bind fun server =>
      (StoreClient.make { smallest := some 1 }).toOption.map fun client =>
        let two := ((KeyServer.Call.add [2] [[2]]).perform server).2
        let three := ((KeyServer.Call.add [3] [[3]]).perform two).2
        let lost := (restart ⟨client, .both (three.losing 1), .circle⟩).2
        let one := ((KeyServer.Call.delete [2, 3]).perform three).2
        let again := update { lost with servers := .both (one.losing 0) }
        ((lost.client.layers.total, lost.client.layers.unreadyCount), one.rowCount, again.1,
          again.2.client.layers.total)) = some ((3, 1), 1, .ok (), 1) := by decide +kernel
  cases made : KeyServer.make { ratio := .finite 1 } [1] [[1]] with
  | error failure =>
      rw [made] at works
      cases works
  | ok server =>
      rw [made] at works
      cases madeClient : StoreClient.make { smallest := some 1 } with
      | error failure => cases madeClient
      | ok client =>
          rw [madeClient] at works
          simp only [Except.toOption, Option.bind_some, Option.map_some, Option.some.injEq,
            Prod.mk.injEq] at works
          obtain ⟨⟨rows, unready⟩, left, updated, rowsAfter⟩ := works
          have begun : Faltering PreparedReplica.OnlyLoses
              ⟨client, .both (server.losing 0), .circle⟩ server :=
            .start madeClient (by simp) made (server.onlyLoses_losing 0)
          have addTwo : (KeyServer.Call.add [2] [[2]]).HasContent := by
            simp [KeyServer.Call.HasContent]
          have addThree : (KeyServer.Call.add [3] [[3]]).HasContent := by
            simp [KeyServer.Call.HasContent]
          have deleteBoth : (KeyServer.Call.delete [2, 3]).HasContent := trivial
          set two := ((KeyServer.Call.add [2] [[2]]).perform server).2
          set three := ((KeyServer.Call.add [3] [[3]]).perform two).2
          set one := ((KeyServer.Call.delete [2, 3]).perform three).2
          have grown := (begun.change (two.losing 0) addTwo (two.onlyLoses_losing 0)).change
            (three.losing 1) addThree (three.onlyLoses_losing 1)
          have changed := grown.restart.change (one.losing 0) deleteBoth (one.onlyLoses_losing 0)
          obtain ⟨inOrder, recovers, -⟩ := changed.recovers PreparedReplica.faithful_onlyLoses
          exact ⟨_, _, changed, inOrder, rows, unready, left, updated, rowsAfter, recovers⟩

end Session

end PrivateRetrieval
