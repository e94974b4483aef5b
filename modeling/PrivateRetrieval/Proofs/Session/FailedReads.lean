/-
# Reads that fail

A read can fail in many places: the key may be unknown, one of the layers may refuse, a replica may
give no answer, too few answers, or answers that do not fit. By then layers were asked, and their
clients have drawn sets and noted where rows are. But what a client reads with is replaced in one
place only, when a row was found. So a read that fails leaves the log, the positions, and the layers
up to such notes as they were.

Replicas may reply to reads as they like, as long as the replies from which a row was made were
honest, and the left one is honest about its log and its hints, or loses a hint. Then a read that is
answered honestly gives what the server held at the client's last update, however many reads failed
before it, unless the server has compacted its log in between.

The invariant names the server as the client has taken it up last. As long as no compaction moved
any row, the layers fit the table of that server.
-/

import PrivateRetrieval.Proofs.Layers.Notes
import PrivateRetrieval.Proofs.Layers.Routing
import PrivateRetrieval.Proofs.Session.Reading

namespace PrivateRetrieval

/-- A relation between the states of a replica and servers as for faithful replicas. What a replica
replies to reads does not matter, but it goes on to stand for its server. -/
structure Replica.FaithfulButReads {σ : Type} [Replica σ] (standsFor : σ → KeyServer → Prop) :
    Prop extends Replica.Faithful standsFor where
  layerAnswer : ∀ {replica : σ} {server : KeyServer}, standsFor replica server →
    ∀ query, standsFor (Replica.layerAnswer query replica).2 server

/-- Prepared replies to reads do not keep a replica from standing for its server. -/
theorem PreparedReplica.faithfulButReads_onlyLoses :
    Replica.FaithfulButReads PreparedReplica.OnlyLoses where
  toFaithful := faithful_onlyLoses
  layerAnswer := by
    rintro ⟨_, updates, hints, answers⟩ server ⟨rfl, rfl, lost⟩ query
    cases answers with
    | nil => exact ⟨rfl, rfl, lost⟩
    | cons answer rest => exact ⟨rfl, rfl, lost⟩

namespace Session

variable {σ : Type}

/-- What a client reads with is kept: what it knows of the log, the positions of the keys, the
ranges of the layers, how they are read and which of them are ready, and all that their clients
have but the notes and the counts of the punctured scheme. -/
structure KeepsReading (before after : Session σ) : Prop where
  configuration : after.client.configuration = before.client.configuration
  log : after.client.log = before.client.log
  positions : after.client.positions = before.client.positions
  layers : after.client.layers.withoutNotes = before.client.layers.withoutNotes

section Statements

variable [Replica σ]

/-- Sessions whose client gets honest updates and hints, the server that its left replica stands
for, and what the server held under each key when the client updated last, if that update
succeeded. The server carries out calls. The client updates, begins anew, and reads. Updates may
fail, since hints may get lost. Reads may come to anything, but a row is only made of honest
replies. -/
inductive Enduring (standsFor : σ → KeyServer → Prop) :
    Session σ → KeyServer → Outcome (Key → Outcome Row) → Prop
  | start {session : Session σ} {configuration : ClientConfiguration}
      {serverConfiguration : ServerConfiguration} {keys : List Key} {rows : List Row}
      {server : KeyServer} : StoreClient.make configuration = .ok session.client →
      (∀ row ∈ rows, 0 < row.length) →
      KeyServer.make serverConfiguration keys rows = .ok server →
      standsFor session.servers.left server →
      Enduring standsFor session server (.ok fun key => .error (.keyNotFound key))
  | change {session : Session σ} {server : KeyServer} {held : Outcome (Key → Outcome Row)}
      {call : KeyServer.Call} {left : σ} (right : σ) : Enduring standsFor session server held →
      call.HasContent → standsFor left (call.perform server).2 →
      Enduring standsFor { session with servers := ⟨left, right⟩ } (call.perform server).2 held
  | update {session : Session σ} {server : KeyServer} {held : Outcome (Key → Outcome Row)} :
      Enduring standsFor session server held → server.rowCount < 2 ^ 32 →
      Enduring standsFor session.update.2 server (session.update.1.map fun _ => server.row)
  | restart {session : Session σ} {server : KeyServer} {held : Outcome (Key → Outcome Row)} :
      Enduring standsFor session server held → server.rowCount < 2 ^ 32 →
      Enduring standsFor session.restart.2 server (session.restart.1.map fun _ => server.row)
  | read {session : Session σ} {server : KeyServer} {held : Outcome (Key → Outcome Row)}
      (key : Key) : Enduring standsFor session server held →
      session.client.layers.HasNumbersLeft →
      (∀ row, (session.read key).1 = .ok row → session.AnsweredBy key server.table) →
      Enduring standsFor (session.read key).2 server held

end Statements

/-- A read that fails keeps what the client reads with. -/
theorem Reads.keepsReading [Replica σ] {session after : Session σ} {key : Key} {failure : Failure}
    (reads : Reads session key (.error failure) after) : session.KeepsReading after := by
  have layersKept : ∀ {position : Nat} {layers : Layers} {tape : Tape}
      {result : Outcome (Sides LayeredQuery × PendingLayer)},
      session.client.layers.query position session.tape = (result, layers, tape) →
      layers.withoutNotes = session.client.layers.withoutNotes := by
    intro position layers tape result asks
    have kept := session.client.layers.withoutNotes_query position session.tape
    rwa [asks] at kept
  cases reads with
  | unknown => exact ⟨rfl, rfl, rfl, rfl⟩
  | refused _ asks => exact ⟨rfl, rfl, rfl, layersKept asks⟩
  | failed _ _ asks => exact ⟨rfl, rfl, rfl, layersKept asks⟩

/-- A client agrees with a server as it was when it kept the beginning of the history that the
server keeps for which the left replica stands now. Until a compaction moves rows, the layers fit
the table that the server had then, and they are ready if the last update succeeded. -/
structure Holds (standsFor : σ → KeyServer → Prop) (session : Session σ)
    (server known : KeyServer) (held : Outcome (Key → Outcome Row)) : Prop where
  stands : standsFor session.servers.left server
  agrees : session.client.AgreesWith known
  keeps : ∃ history more, known.Keeps history ∧ server.Keeps (history ++ more)
  earlier : known.log.defragmented ≤ server.log.defragmented
  fits : server.log.defragmented = known.log.defragmented →
    session.client.layers.Fits Client.Serves known.table
  held : ∀ rows, held = .ok rows → known.row = rows ∧
    (server.log.defragmented = known.log.defragmented → session.client.layers.Ready)

namespace Holds

variable {standsFor : σ → KeyServer → Prop} {session : Session σ} {server known : KeyServer}
  {held : Outcome (Key → Outcome Row)}

/-- A new client, and one that forgets what it knows, has taken up a server without rows. -/
theorem of_forgotten (stands : standsFor session.servers.left server)
    {history : List (Entry Row)} (keeps : server.Keeps history)
    (nothing : session.client.KnowsNothing) :
    session.Holds standsFor server (KeyServer.empty {})
      (.ok fun key => .error (.keyNotFound key)) where
  stands := stands
  agrees := nothing.agreesWith
  keeps := ⟨[], history, KeyServer.keeps_empty {}, keeps⟩
  earlier := Nat.zero_le _
  fits := fun _ => Layers.fits_nothing nothing.slots nothing.total 0
  held := by
    rintro _ ⟨⟩
    refine ⟨?_, fun _ layer member => ?_⟩
    · funext key
      rw [KeyServer.row, KeyServer.empty, Positions.find?_empty]
    · rw [Layers.active, nothing.slots] at member
      cases member

/-- Calls of the server are not seen by the client. -/
theorem change (holds : session.Holds standsFor server known held) {call : KeyServer.Call}
    (content : call.HasContent) {left : σ} (stands : standsFor left (call.perform server).2)
    (right : σ) :
    Holds standsFor { session with servers := ⟨left, right⟩ } (call.perform server).2 known
      held := by
  obtain ⟨history, more, keeps, keepsServer⟩ := holds.keeps
  obtain ⟨added, keepsAfter, later⟩ := keepsServer.performed content
  rw [List.append_assoc] at keepsAfter
  -- The end of the compacted prefix only moves on, so it has not moved if it is where it was.
  have still : (call.perform server).2.log.defragmented = known.log.defragmented →
      server.log.defragmented = known.log.defragmented := fun same =>
    Nat.le_antisymm (later.trans_eq same) holds.earlier
  refine ⟨stands, holds.agrees, ⟨history, more ++ added, keeps, keepsAfter⟩,
    holds.earlier.trans later, fun same => holds.fits (still same), fun rows isHeld => ?_⟩
  obtain ⟨isRow, ready⟩ := holds.held rows isHeld
  exact ⟨isRow, fun same => ready (still same)⟩

section Calls

variable [Replica σ]

/-- After an update the client holds what the server does, unless the update failed. -/
theorem update (faithful : Replica.Faithful standsFor)
    (holds : session.Holds standsFor server known held) (few : server.rowCount < 2 ^ 32) :
    ∃ known, session.update.2.Holds standsFor server known
      (session.update.1.map fun _ => server.row) := by
  obtain ⟨history, more, keeps, keepsServer⟩ := holds.keeps
  cases made : server.keyUpdate session.client.updateRequest with
  | error failure =>
      obtain ⟨honest, stands⟩ := faithful.keyUpdate holds.stands session.client.updateRequest
      rcases reply : Replica.keyUpdate session.client.updateRequest session.servers.left with
        ⟨answer, left⟩
      rw [reply] at honest stands
      obtain rfl : answer = .error failure := honest.trans made
      obtain ⟨refused, same⟩ := update_of_refused reply
      rw [same, refused]
      refine ⟨known, stands, holds.agrees, holds.keeps, holds.earlier, holds.fits, ?_⟩
      rintro rows ⟨⟩
  | ok update =>
      have takesUp := takesUp_of_answered faithful Client.holdsOfNew_servesFew holds.stands
        holds.agrees keeps keepsServer holds.earlier (fun still => (holds.fits still).servesFew)
        made
      refine ⟨server, takesUp.stands, takesUp.agrees, ⟨history ++ more, [], keepsServer, ?_⟩,
        Nat.le_refl _, fun _ => takesUp.fits.serves few.le, fun rows isHeld => ?_⟩
      · rwa [List.append_nil]
      · rcases result : session.update.1 with failure | _
        · rw [result] at isHeld
          cases isHeld
        · rw [result] at isHeld
          cases isHeld
          exact ⟨rfl, fun _ => takesUp.ready result⟩

theorem restart (faithful : Replica.Faithful standsFor)
    (holds : session.Holds standsFor server known held) (few : server.rowCount < 2 ^ 32) :
    ∃ known, session.restart.2.Holds standsFor server known
      (session.restart.1.map fun _ => server.row) := by
  obtain ⟨history, more, -, keepsServer⟩ := holds.keeps
  have forgotten : Holds standsFor { session with client := session.client.forget .empty }
      server (KeyServer.empty {}) _ :=
    of_forgotten holds.stands keepsServer session.client.knowsNothing_forget
  exact forgotten.update faithful few

/-- As long as no compaction moved rows, layers that fit go on to fit, and no layer ceases to be
ready. A row can only have been found if all layers were ready. -/
theorem fits_of_reads (holds : session.Holds standsFor server known held)
    (still : server.log.defragmented = known.log.defragmented)
    (left : session.client.layers.HasNumbersLeft) {key : Key} {result : Outcome Row}
    {after : Session σ} (reads : Reads session key result after)
    (answered : ∀ row, result = .ok row → session.AnsweredBy key server.table) :
    after.client.layers.Fits Client.Serves known.table ∧
      (session.client.layers.Ready → after.client.layers.Ready) := by
  have fits := holds.fits still
  have asked : ∀ {position : Nat} {layers : Layers} {tape : Tape}
      {result : Outcome (Sides LayeredQuery × PendingLayer)},
      session.client.layers.query position session.tape = (result, layers, tape) →
      layers.Fits Client.Serves known.table ∧ (session.client.layers.Ready → layers.Ready) := by
    intro position layers tape result asks
    have fitsAsked := fits.query left position session.tape
    have readyAsked := fun ready : session.client.layers.Ready => ready.query position session.tape
    rw [asks] at fitsAsked readyAsked
    exact ⟨fitsAsked, readyAsked⟩
  cases reads with
  | unknown => exact ⟨fits, id⟩
  | refused _ asks => exact asked asks
  | failed _ _ asks => exact asked asks
  | found statistics isPosition asks isFound =>
      obtain ⟨history, more, keeps, keepsServer⟩ := holds.keeps
      have ready := fits.readyFor (Layers.ready_of_query asks)
      have inside := (ready.lt_total_of_query left asks).trans_eq fits.total
      obtain ⟨readyAfter, -⟩ := (Reads.found statistics isPosition asks isFound).of_answeredBy ready
        left (keeps.precedes keepsServer still) (answered _ rfl) isPosition inside
      exact ⟨readyAfter.fits, fun _ => readyAfter.ready⟩

theorem of_reads (lawful : Replica.FaithfulButReads standsFor)
    (holds : session.Holds standsFor server known held)
    (left : session.client.layers.HasNumbersLeft) {key : Key} {result : Outcome Row}
    {after : Session σ} (reads : Reads session key result after)
    (answered : ∀ row, result = .ok row → session.AnsweredBy key server.table) :
    after.Holds standsFor server known held := by
  have stands : standsFor after.servers.left server := by
    cases reads with
    | unknown => exact holds.stands
    | refused => exact holds.stands
    | failed => exact lawful.layerAnswer holds.stands _
    | found => exact lawful.layerAnswer holds.stands _
  have known : after.client.log = session.client.log ∧
      after.client.positions = session.client.positions := by
    cases reads <;> exact ⟨rfl, rfl⟩
  refine ⟨stands, ⟨known.1.trans holds.agrees.log, known.2.trans holds.agrees.positions⟩,
    holds.keeps, holds.earlier,
    fun still => (holds.fits_of_reads still left reads answered).1, fun rows isHeld => ?_⟩
  obtain ⟨isRow, ready⟩ := holds.held rows isHeld
  exact ⟨isRow, fun still => (holds.fits_of_reads still left reads answered).2 (ready still)⟩

end Calls

/-- After an update that succeeded, and as long as no compaction moved rows, the layers are ready
for a table that the server's table continues. -/
theorem readyFor {rows : Key → Outcome Row}
    (holds : session.Holds standsFor server known (.ok rows))
    (still : server.log.defragmented = session.client.log.defragmented) :
    server.log.defragmented = known.log.defragmented ∧ session.client.layers.ReadyFor known.table ∧
      known.table.Precedes server.table := by
  have end_eq : session.client.log.defragmented = known.log.defragmented := by
    rw [holds.agrees.log]
    rfl
  have still := still.trans end_eq
  obtain ⟨history, more, keeps, keepsServer⟩ := holds.keeps
  obtain ⟨-, ready⟩ := holds.held rows rfl
  exact ⟨still, (holds.fits still).readyFor (ready still), keeps.precedes keepsServer still⟩

/-- A read that is answered honestly then gives what the client holds, or a layer refuses it. -/
theorem gives [Replica σ] {rows : Key → Outcome Row}
    (holds : session.Holds standsFor server known (.ok rows))
    (still : server.log.defragmented = session.client.log.defragmented)
    (left : session.client.layers.HasNumbersLeft) {key : Key}
    (answered : session.AnsweredBy key server.table) :
    session.Gives key (rows key) (session.read key).1 := by
  obtain ⟨sameEnd, ready, -⟩ := holds.readyFor still
  obtain ⟨history, more, keeps, keepsServer⟩ := holds.keeps
  obtain ⟨rfl, -⟩ := holds.held rows rfl
  exact ((session.reads key).eq_known holds.agrees keeps keepsServer sameEnd ready left answered).2

end Holds

variable [Replica σ] {standsFor : σ → KeyServer → Prop}

/-- In every enduring session the client has taken up some state of the server. -/
theorem Enduring.holds (lawful : Replica.FaithfulButReads standsFor) {session : Session σ}
    {server : KeyServer} {held : Outcome (Key → Outcome Row)}
    (enduring : Enduring standsFor session server held) :
    ∃ known, session.Holds standsFor server known held := by
  induction enduring with
  | start made positive madeServer stands =>
      exact ⟨_, .of_forgotten stands (KeyServer.keeps_make positive madeServer)
        (StoreClient.knowsNothing_of_make made)⟩
  | change right _ content stands ih =>
      obtain ⟨known, holds⟩ := ih
      exact ⟨known, holds.change content stands right⟩
  | update _ few ih =>
      obtain ⟨known, holds⟩ := ih
      exact holds.update lawful.toFaithful few
  | restart _ few ih =>
      obtain ⟨known, holds⟩ := ih
      exact holds.restart lawful.toFaithful few
  | read key _ left answered ih =>
      obtain ⟨known, holds⟩ := ih
      exact ⟨known, holds.of_reads lawful left (Session.reads _ key) answered⟩

/-- A read to which the left replica gives no answers, though the right one gives all of them. It
fails, and the key can be read once less. -/
theorem CanRead.of_no_answers {session : Session σ} {known server : Table} {key : Key}
    {times : Nat} (canRead : session.CanRead key (times + 1))
    (ready : session.client.layers.ReadyFor known) (precedes : known.Precedes server)
    (replies : ∀ queries,
      session.replies queries = ⟨.ok [], server.layerAnswer queries.right⟩) :
    (session.read key).1 = .error .unexpectedResponse ∧ (session.read key).2.CanRead key times ∧
      ∃ queries, (session.read key).2.servers = session.asked queries := by
  have left := canRead.hasNumbersLeft
  obtain ⟨⟨client, rowLength, numbers, isThree⟩, ⟨position, inside, found, covers⟩, fair⟩ := canRead
  have within : position < known.rowCount := by
    have total := ready.total
    rw [isThree] at total
    exact inside.trans_eq total
  rcases ready.query_cases left within session.tape with
    ⟨queries, pending, layers, tape, asks, -, answered⟩ | ⟨failure, _, _, -, -, refused⟩
  · obtain ⟨answers, -, -, isRight, -⟩ := answered (.both server) precedes precedes
    have isRight : server.layerAnswer queries.right = .ok answers.right := isRight
    have short : rowOfReplies layers pending (session.replies queries) =
        .error .unexpectedResponse := by
      rw [replies, isRight]
      rfl
    have queried := asks
    rw [isThree] at ready covers queried
    obtain ⟨inner, isThreeAfter, fewer, word, kept⟩ :=
      ready.of_query_ofThree numbers inside queried
    have reads := session.reads key
    generalize session.read key = outcome at reads ⊢
    obtain ⟨result, after⟩ := outcome
    cases reads with
    | unknown isUnknown => cases found.symm.trans isUnknown
    | refused found' refuses =>
        cases found.symm.trans found'
        cases asks.symm.trans refuses
    | failed _ found' asks' failed =>
        cases found.symm.trans found'
        cases asks.symm.trans asks'
        cases short.symm.trans failed
        exact ⟨rfl, ⟨⟨inner, rowLength, fewer, isThreeAfter⟩,
          ⟨position, inside, found, kept position covers⟩, (Tape.fair_congr word).mpr fair⟩,
          queries, rfl⟩
    | found _ found' asks' isFound =>
        cases found.symm.trans found'
        cases asks.symm.trans asks'
        cases short.symm.trans isFound
  · exact absurd refused (covers.not_refusal fair)

/-- A client that can read a key twice, from a server that has given the key another row since the
client's update. The left replica has no answers to the first read. -/
theorem exists_enduring_canRead :
    ∃ (session : Session (PreparedReplica KeyServer)) (server next : KeyServer) (key : Key)
      (row newRow : Row), Enduring PreparedReplica.OnlyLoses session next (.ok server.row) ∧
      session.servers = ⟨{ behind := next, answers := [some []] }, next.losing 0⟩ ∧
      next.log.defragmented = session.client.log.defragmented ∧ session.CanRead key 2 ∧
      server.row key = .ok row ∧ next.row key = .ok newRow ∧ row ≠ newRow := by
  obtain ⟨server, again, made, content, rowCount, short, sameEnd, keys⟩ :=
    exists_server_of_three_keys
  obtain ⟨client, madeClient⟩ : ∃ client, StoreClient.make { smallest := some 1 } = .ok client :=
    ⟨_, rfl⟩
  have positive : ∀ row ∈ [[1], [2], [3]], 0 < (row : Row).length := by simp
  have few : server.rowCount < 2 ^ 32 := by
    rw [rowCount]
    decide
  let begun : Session (PreparedReplica KeyServer) := ⟨client, .both (server.losing 0), .circle⟩
  have isClient : StoreClient.make { smallest := some 1 } = .ok begun.client := madeClient
  have begins : Enduring PreparedReplica.OnlyLoses begun server _ :=
    .start madeClient positive made (server.onlyLoses_losing 0)
  obtain ⟨caughtUp, inner, updated, -, word, agrees, layers, numbers⟩ :=
    exists_update_ofThree isClient (KeyServer.keeps_make positive made) short rowCount
      (fun _ => rfl) (fun _ => rfl) rfl
  have upToDate := begins.update few
  rw [updated] at upToDate
  set next := (again.perform server).2
  set session : Session (PreparedReplica KeyServer) :=
    { caughtUp with servers := ⟨{ behind := next, answers := [some []] }, next.losing 0⟩ }
  have enduring : Enduring PreparedReplica.OnlyLoses session next (.ok server.row) :=
    upToDate.change (next.losing 0) content ⟨rfl, rfl, List.forall_mem_nil _⟩
  have agrees : session.client.AgreesWith server := agrees
  have layers : session.client.layers =
      .ofThree (some (.puncturedSets inner)) server.table.rowLength none := layers
  have still : next.log.defragmented = session.client.log.defragmented := by
    rw [agrees.log]
    exact sameEnd
  have fair : session.tape.Fair := (Tape.fair_congr word).mpr Tape.fair_circle
  obtain ⟨known, holds⟩ := enduring.holds PreparedReplica.faithfulButReads_onlyLoses
  obtain ⟨-, ready, -⟩ := holds.readyFor still
  obtain ⟨position, inside, canReadAt⟩ := exists_canRead layers numbers ready fair
  obtain ⟨key, row, newRow, isPosition, isRow, isNew, differ⟩ := keys position inside
  have canRead : session.CanRead key 2 := by
    apply canReadAt
    rwa [agrees.positions]
  exact ⟨session, server, next, key, row, newRow, enduring, rfl, still, canRead, isRow, isNew,
    differ⟩

/-- A read that fails leaves the client able to read. It keeps what the client reads with, whatever
the replicas replied. And in every session in which rows were only made of honest replies, however
many reads failed, a read that is answered honestly gives what the server held at the client's last
update, as long as the server has not compacted its log since. Only a layer that is read with
punctured sets may refuse the row instead, and only a tape that is not fair ends the search for a
set. -/
theorem failed_read_leaves_readable (lawful : Replica.FaithfulButReads standsFor) :
    (∀ (session : Session σ) (key : Key) (failure : Failure),
      (session.read key).1 = .error failure → session.KeepsReading (session.read key).2) ∧
    ∀ (session : Session σ) (server : KeyServer) (held : Key → Outcome Row),
      Enduring standsFor session server (.ok held) →
      server.log.defragmented = session.client.log.defragmented →
      session.client.layers.HasNumbersLeft →
      ∀ key, session.AnsweredBy key server.table →
        held key = .error (.keyNotFound key) ∧ (session.read key).1 = .error (.keyNotFound key) ∨
          ∃ row position, held key = .ok row ∧
            session.client.positions.find? key = some position ∧
            ((session.read key).1 = .ok row ∨
              (∃ layer ∈ session.client.layers.active, layer.scheme = .puncturedSets ∧
                layer.holds position = true ∧
                (session.read key).1 = .error (.notCovered (position - layer.first))) ∨
              (session.read key).1 = .error .exhausted ∧ ¬ session.tape.Fair) := by
  refine ⟨fun session key failure failed => ?_,
    fun session server held enduring still left key answered => ?_⟩
  · have reads := session.reads key
    rw [failed] at reads
    exact reads.keepsReading
  · obtain ⟨known, holds⟩ := enduring.holds lawful
    obtain absent | ⟨row, position, isRow, found, gives⟩ := holds.gives still left answered
    · exact Or.inl absent
    · exact Or.inr ⟨row, position, isRow, found, gives.imp_right error_of_refusal⟩

/-- The left replica gives no answers to a read, and it fails. The rows are read with punctured
sets, so a set was drawn for it. The next read gives the row that the server held at the last
update, though the server has got another one since. -/
theorem read_after_short_answer :
    ∃ (before : Session (PreparedReplica KeyServer)) (server : KeyServer)
      (held : Key → Outcome Row) (key : Key) (row newRow : Row),
      (before.read key).1 = .error .unexpectedResponse ∧
      before.KeepsReading (before.read key).2 ∧
      Enduring PreparedReplica.OnlyLoses (before.read key).2 server (.ok held) ∧
      (before.read key).2.client.layers.active.map Layer.scheme = [.puncturedSets] ∧
      held key = .ok row ∧ server.row key = .ok newRow ∧ row ≠ newRow ∧
      ((before.read key).2.read key).1 = .ok row := by
  obtain ⟨before, server, next, key, row, newRow, begun, servers, still, canRead, isRow, isNew,
    differ⟩ := exists_enduring_canRead
  have lawful := PreparedReplica.faithfulButReads_onlyLoses
  obtain ⟨known, holds⟩ := begun.holds lawful
  obtain ⟨-, ready, precedes⟩ := holds.readyFor still
  have replies : ∀ queries,
      before.replies queries = ⟨.ok [], next.table.layerAnswer queries.right⟩ := by
    intro queries
    rw [Session.replies, servers]
    rfl
  obtain ⟨failed, canReadAgain, queries, isAsked⟩ := canRead.of_no_answers ready precedes replies
  obtain ⟨keeps, gives⟩ := failed_read_leaves_readable lawful
  have kept := keeps before key _ failed
  set after := (before.read key).2
  have enduring : Enduring PreparedReplica.OnlyLoses after next (.ok server.row) := by
    refine begun.read key canRead.hasNumbersLeft fun row isRow => ?_
    cases failed.symm.trans isRow
  refine ⟨before, next, server.row, key, row, newRow, failed, kept, enduring,
    canReadAgain.scheme_eq, isRow, isNew, differ, ?_⟩
  have still : next.log.defragmented = after.client.log.defragmented := by
    rwa [kept.log]
  have left := canReadAgain.hasNumbersLeft
  -- No prepared answers are left, so the replicas are honest from now on.
  have answered : after.AnsweredBy key next.table := by
    intro _ queries _ _ _ _ _
    rw [Session.replies, isAsked, asked, servers]
    rfl
  obtain ⟨_, holdsAfter⟩ := enduring.holds lawful
  have isRead := canReadAgain.eq_ok isRow (holdsAfter.gives still left answered)
  rcases gives after next server.row enduring still left key answered with
    ⟨absent, -⟩ | ⟨other, _, isOther, -, given | ⟨_, -, -, -, refused⟩ | ⟨exhausted, -⟩⟩
  · cases isRow.symm.trans absent
  · cases isRow.symm.trans isOther
    exact given
  · cases isRead.symm.trans refused
  · cases isRead.symm.trans exhausted

end Session

end PrivateRetrieval
