/-
# What a read gives

Two servers begin alike and carry out the same calls, and a client updates and reads in between.
What a read gives is what the servers held when the client updated last, as long as the servers
have not compacted their logs since. Rows that were added later do not matter, and neither does
what earlier reads did to the layers.

The invariant names the server as it was at the last update. The client agrees with that server.
As long as no compaction moved any row, the layers are ready for the table of that server, and
the tables of the servers continue it. After a compaction nothing is said of the layers: a read
may then fail, or leave a layer with a wrong hint. But the next update sees the compaction and
drops all layers.
-/

import PrivateRetrieval.Proofs.Layers.Reading
import PrivateRetrieval.Proofs.Server.Epochs
import PrivateRetrieval.Proofs.Server.Refinement
import PrivateRetrieval.Proofs.Session.Agreement
import PrivateRetrieval.Proofs.Session.Placing

namespace PrivateRetrieval

namespace Session

section Replicas

variable {σ : Type} [Replica σ] {session after : Session σ} {key : Key} {known server : Table}

/-- If a read asks the replicas, they reply what they would with a table. -/
def AnsweredBy (session : Session σ) (key : Key) (server : Table) : Prop :=
  ∀ position queries pending layers tape, session.client.positions.find? key = some position →
    session.client.layers.query position session.tape = (.ok (queries, pending), layers, tape) →
    session.replies queries =
      ⟨server.layerAnswer queries.left, server.layerAnswer queries.right⟩

/-- A read that is answered from a table that continues the one that the layers know gives the row
in the position of the key, or it is refused. The layers are as ready as before. -/
theorem Reads.of_answeredBy {result : Outcome Row} (reads : Reads session key result after)
    (ready : session.client.layers.ReadyFor known) (left : session.client.layers.HasNumbersLeft)
    (precedes : known.Precedes server) (answered : session.AnsweredBy key server) {position : Nat}
    (found : session.client.positions.find? key = some position)
    (inside : position < known.rowCount) :
    after.client.layers.ReadyFor known ∧
      (result = .ok (known.rowAt position) ∨ ∃ failure, result = .error failure ∧
        Layer.Refusal position session.tape session.client.layers.active failure) := by
  rcases ready.query_cases left inside session.tape with
    ⟨queries, pending, layers, tape, asks, -, replied⟩ |
    ⟨failure, layers, tape, refuses, readyRefused, why⟩
  · -- The replies are those of the table, and the row is found in them.
    obtain ⟨answers, later, isLeft, isRight, reconstructed, readyLater⟩ :=
      replied (.both server) precedes precedes
    have isFound : rowOfReplies layers pending (session.replies queries) =
        .ok (known.rowAt position, later) := by
      rw [answered position queries pending layers tape found asks]
      simp only [Sides.both] at isLeft isRight
      rw [isLeft, isRight]
      exact reconstructed
    cases reads with
    | unknown isUnknown =>
        rw [found] at isUnknown
        cases isUnknown
    | refused found' refuses =>
        cases found.symm.trans found'
        cases asks.symm.trans refuses
    | failed _ found' asks' failed =>
        cases found.symm.trans found'
        cases asks.symm.trans asks'
        cases isFound.symm.trans failed
    | found _ found' asks' isFound' =>
        cases found.symm.trans found'
        cases asks.symm.trans asks'
        cases isFound.symm.trans isFound'
        exact ⟨readyLater, Or.inl rfl⟩
  · cases reads with
    | unknown isUnknown =>
        rw [found] at isUnknown
        cases isUnknown
    | refused found' refuses' =>
        cases found.symm.trans found'
        cases refuses.symm.trans refuses'
        exact ⟨readyRefused, Or.inr ⟨failure, rfl, why⟩⟩
    | failed _ found' asks =>
        cases found.symm.trans found'
        cases refuses.symm.trans asks
    | found _ found' asks =>
        cases found.symm.trans found'
        cases refuses.symm.trans asks

/-- What a read gives, if the server held something or nothing under the key: the same, unless a
layer refuses the row. -/
def Gives (session : Session σ) (key : Key) (held result : Outcome Row) : Prop :=
  held = .error (.keyNotFound key) ∧ result = .error (.keyNotFound key) ∨
    ∃ row position, held = .ok row ∧ session.client.positions.find? key = some position ∧
      (result = .ok row ∨ ∃ failure, result = .error failure ∧
        Layer.Refusal position session.tape session.client.layers.active failure)

/-- A read that is answered by a server which has not compacted since the client took it up gives
what the server gave then. -/
theorem Reads.eq_known {known server : KeyServer} {history more : List (Entry Row)}
    {result : Outcome Row} (reads : Reads session key result after)
    (agrees : session.client.AgreesWith known) (keeps : known.Keeps history)
    (keepsServer : server.Keeps (history ++ more))
    (still : server.log.defragmented = known.log.defragmented)
    (ready : session.client.layers.ReadyFor known.table)
    (left : session.client.layers.HasNumbersLeft)
    (answered : session.AnsweredBy key server.table) :
    after.client.layers.ReadyFor known.table ∧
      session.Gives key (known.row key) result := by
  rw [Gives, KeyServer.row, ← agrees.positions]
  cases found : session.client.positions.find? key with
  | none =>
      cases reads with
      | unknown => exact ⟨ready, Or.inl ⟨rfl, rfl⟩⟩
      | refused found' => cases found.symm.trans found'
      | failed _ found' => cases found.symm.trans found'
      | found _ found' => cases found.symm.trans found'
  | some position =>
      have inside : position < known.table.rowCount := by
        rw [Table.rowCount_eq]
        rw [agrees.positions] at found
        exact keeps.locates.inside key position found
      obtain ⟨readyAfter, gives⟩ := reads.of_answeredBy ready left
        (keeps.precedes keepsServer still) answered found inside
      exact ⟨readyAfter, Or.inr ⟨_, position, Table.row_eq_rowAt inside, rfl, gives⟩⟩

/-- What a read gives that a layer refused. -/
theorem error_of_refusal {row : Nat} {tape : Tape} {layers : List Layer} {result : Outcome Row}
    (refused : ∃ failure, result = .error failure ∧ Layer.Refusal row tape layers failure) :
    (∃ layer ∈ layers, layer.scheme = .puncturedSets ∧ layer.holds row = true ∧
        result = .error (.notCovered (row - layer.first))) ∨
      result = .error .exhausted ∧ ¬ tape.Fair := by
  obtain ⟨failure, failed, ⟨layer, member, punctured, holds, -, rfl⟩ | ⟨rfl, unfair⟩⟩ := refused
  · exact Or.inl ⟨layer, member, punctured, holds, failed⟩
  · exact Or.inr ⟨failed, unfair⟩

end Replicas

/-- A session that begins with two servers that are made alike, with rows of a positive length,
and a client that knows nothing yet. -/
structure BeginsAlike (session : Session KeyServer) : Prop where
  client : ∃ configuration, StoreClient.make configuration = .ok session.client
  servers : ∃ configuration keys rows server, (∀ row ∈ rows, 0 < row.length) ∧
    KeyServer.make configuration keys rows = .ok server ∧ session.servers = .both server

/-- Sessions in use, and what the servers held under each key when the client updated last.
Calls are carried out by both servers alike, whether they are accepted or not. The client's
updates succeed, as do those with which it begins anew. Reads give whatever they give, as long
as there are numbers for the sets that they draw. -/
inductive InUse : Session KeyServer → (Key → Outcome Row) → Prop
  | start {session : Session KeyServer} : session.BeginsAlike →
      InUse session fun key => .error (.keyNotFound key)
  | change {session : Session KeyServer} {held : Key → Outcome Row} (call : KeyServer.Call) :
      InUse session held → call.HasContent →
      InUse { session with servers := session.servers.map fun server => (call.perform server).2 }
        held
  | update {session after : Session KeyServer} {held : Key → Outcome Row} :
      InUse session held → session.servers.left.rowCount < 2 ^ 32 →
      session.update = (.ok (), after) → InUse after after.servers.left.row
  | restart {session after : Session KeyServer} {held : Key → Outcome Row} :
      InUse session held → session.servers.left.rowCount < 2 ^ 32 →
      session.restart = (.ok (), after) → InUse after after.servers.left.row
  | read {session : Session KeyServer} {held : Key → Outcome Row} (key : Key) :
      InUse session held → session.client.layers.HasNumbersLeft →
      InUse (session.read key).2 held

/-- A client remembers a server as it was when it kept the beginning of a history that both servers
keep now. The layers are ready for the table of that server until a compaction moves rows. -/
structure Remembers (session : Session KeyServer) (known : KeyServer) : Prop where
  agrees : session.client.AgreesWith known
  keeps : ∃ history more server, known.Keeps history ∧ server.Keeps (history ++ more) ∧
    session.servers = .both server
  earlier : known.log.defragmented ≤ session.servers.left.log.defragmented
  layers : session.servers.left.log.defragmented = known.log.defragmented →
    session.client.layers.ReadyFor known.table

namespace Remembers

variable {session after : Session KeyServer} {known : KeyServer}

/-- A new client, and one that forgets what it knows, remembers a server without rows. -/
theorem of_forgotten {session : Session KeyServer} {server : KeyServer}
    {history : List (Entry Row)} (isServer : session.servers = .both server)
    (keeps : server.Keeps history) (nothing : session.client.KnowsNothing) :
    session.Remembers (KeyServer.empty {}) where
  agrees := nothing.agreesWith
  keeps := ⟨[], history, server, KeyServer.keeps_empty {}, keeps, isServer⟩
  earlier := Nat.zero_le _
  layers := by
    intro _
    apply (Layers.fits_nothing nothing.slots nothing.total 0).readyFor
    intro layer member
    rw [Layers.active, nothing.slots] at member
    cases member

/-- Calls that both servers carry out are not seen by the client. -/
theorem change (remembers : session.Remembers known) {call : KeyServer.Call}
    (content : call.HasContent) :
    Remembers { session with
      servers := session.servers.map fun server => (call.perform server).2 } known := by
  obtain ⟨history, more, server, keeps, keepsServer, isServer⟩ := remembers.keeps
  have earlier := remembers.earlier
  have layers := remembers.layers
  rw [isServer] at earlier layers ⊢
  obtain ⟨added, keepsAfter, later⟩ := keepsServer.performed content
  rw [List.append_assoc] at keepsAfter
  refine ⟨remembers.agrees, ⟨history, more ++ added, _, keeps, keepsAfter, rfl⟩,
    earlier.trans later, fun still => layers ?_⟩
  have still : (call.perform server).2.log.defragmented = known.log.defragmented := still
  exact Nat.le_antisymm (later.trans_eq still) earlier

/-- After an update that succeeds the client remembers the server as it is. -/
theorem update (remembers : session.Remembers known)
    (few : session.servers.left.rowCount < 2 ^ 32) (updated : session.update = (.ok (), after)) :
    after.Remembers after.servers.left := by
  obtain ⟨history, more, server, keeps, keepsServer, isServer⟩ := remembers.keeps
  have servers : after.servers = session.servers := by
    rw [← session.servers_update, updated]
  rw [servers]
  have keepsLeft : session.servers.left.Keeps (history ++ more) := by
    rw [isServer]
    exact keepsServer
  cases made : session.servers.left.keyUpdate session.client.updateRequest with
  | error failure =>
      obtain ⟨refused, same⟩ := update_of_refused (KeyServer.reply_of_keyUpdate made)
      rw [same, refused] at updated
      cases updated
  | ok keyUpdate =>
      have takesUp := takesUp_of_answered KeyServer.faithful_eq Client.holdsOfNew_servesFew rfl
        remembers.agrees keeps keepsLeft remembers.earlier
        (fun still => (remembers.layers still).fits.servesFew) made
      rw [updated] at takesUp
      refine ⟨takesUp.agrees, ⟨history ++ more, [], server, keepsLeft, ?_,
        servers.trans isServer⟩, ?_,
        fun _ => (takesUp.fits.serves few.le).readyFor (takesUp.ready rfl)⟩
      · rwa [List.append_nil]
      · rw [servers]

theorem restart (remembers : session.Remembers known)
    (few : session.servers.left.rowCount < 2 ^ 32) (restarted : session.restart = (.ok (), after)) :
    after.Remembers after.servers.left := by
  obtain ⟨history, more, server, keeps, keepsServer, isServer⟩ := remembers.keeps
  have forgotten : Remembers { session with client := session.client.forget .empty } _ :=
    of_forgotten isServer keepsServer session.client.knowsNothing_forget
  exact forgotten.update few restarted

/-- As long as no compaction moved rows, a read gives what the remembered server gives, and leaves
the layers ready. -/
theorem read_of_still (remembers : session.Remembers known)
    (still : session.servers.left.log.defragmented = known.log.defragmented)
    (left : session.client.layers.HasNumbersLeft) (key : Key) :
    (session.read key).2.client.layers.ReadyFor known.table ∧
      session.Gives key (known.row key) (session.read key).1 := by
  obtain ⟨history, more, server, keeps, keepsServer, isServer⟩ := remembers.keeps
  have answered : session.AnsweredBy key server.table := by
    intro _ queries _ _ _ _ _
    rw [replies, isServer]
    rfl
  have ready := remembers.layers still
  rw [isServer] at still
  exact (session.reads key).eq_known remembers.agrees keeps keepsServer still ready left answered

theorem read (remembers : session.Remembers known) (left : session.client.layers.HasNumbersLeft)
    (key : Key) : (session.read key).2.Remembers known := by
  have alike := session.alike_read key
  refine ⟨⟨alike.log.trans remembers.agrees.log, alike.positions.trans remembers.agrees.positions⟩,
    ?_, ?_, ?_⟩
  · rw [alike.servers]
    exact remembers.keeps
  · rw [alike.servers]
    exact remembers.earlier
  · rw [alike.servers]
    exact fun still => (remembers.read_of_still still left key).1

end Remembers

theorem BeginsAlike.remembers {session : Session KeyServer} (begins : session.BeginsAlike) :
    session.Remembers (KeyServer.empty {}) := by
  obtain ⟨configuration, made⟩ := begins.client
  obtain ⟨serverConfiguration, keys, rows, server, positive, madeServer, isServer⟩ := begins.servers
  exact .of_forgotten isServer (KeyServer.keeps_make positive madeServer)
    (StoreClient.knowsNothing_of_make made)

/-- In every session in use the client remembers a server that holds what the servers held when the
client updated last. -/
theorem InUse.remembers {session : Session KeyServer} {held : Key → Outcome Row}
    (inUse : InUse session held) : ∃ known, session.Remembers known ∧ known.row = held := by
  induction inUse with
  | start begins =>
      refine ⟨_, begins.remembers, ?_⟩
      funext key
      rw [KeyServer.row, KeyServer.empty, Positions.find?_empty]
  | change call _ content ih =>
      obtain ⟨known, remembers, isHeld⟩ := ih
      exact ⟨known, remembers.change content, isHeld⟩
  | update _ few updated ih =>
      obtain ⟨known, remembers, -⟩ := ih
      exact ⟨_, remembers.update few updated, rfl⟩
  | restart _ few restarted ih =>
      obtain ⟨known, remembers, -⟩ := ih
      exact ⟨_, remembers.restart few restarted, rfl⟩
  | read key _ left ih =>
      obtain ⟨known, remembers, isHeld⟩ := ih
      exact ⟨known, remembers.read left key, isHeld⟩

/-- A key can be read so many times. It has one of three rows, which are read with punctured
sets. -/
structure CanRead {σ : Type} (session : Session σ) (key : Key) (times : Nat) : Prop where
  layers : ∃ client rowLength, client.HasNumbersFor times ∧
    session.client.layers = .ofThree (some (.puncturedSets client)) rowLength none
  row : ∃ position < 3, session.client.positions.find? key = some position ∧
    session.client.layers.Covers position
  fair : session.tape.Fair

section ThreeRows

open Layers

variable {σ : Type} {session : Session σ} {server : KeyServer} {history : List (Entry Row)}

namespace CanRead

variable {key : Key} {times : Nat}

theorem hasNumbersLeft (canRead : session.CanRead key (times + 1)) :
    session.client.layers.HasNumbersLeft := by
  obtain ⟨client, rowLength, numbers, isThree⟩ := canRead.layers
  exact hasNumbersLeft_ofThree isThree numbers

theorem scheme_eq (canRead : session.CanRead key times) :
    session.client.layers.active.map Layer.scheme = [.puncturedSets] := by
  obtain ⟨client, rowLength, -, isThree⟩ := canRead.layers
  rw [isThree]
  rfl

/-- What a read gives is the row, since no layer refuses it. -/
theorem eq_ok (canRead : session.CanRead key times) {held result : Outcome Row} {row : Row}
    (isRow : held = .ok row) (gives : session.Gives key held result) : result = .ok row := by
  obtain ⟨position, -, found, covers⟩ := canRead.row
  rcases gives with ⟨absent, -⟩ | ⟨other, place, isOther, foundOther, given | ⟨failure, -, refused⟩⟩
  · cases isRow.symm.trans absent
  · cases isRow.symm.trans isOther
    exact given
  · cases found.symm.trans foundOther
    exact absurd refused (covers.not_refusal canRead.fair)

end CanRead

/-- One of three rows can be read, whatever its key is. -/
theorem exists_canRead {client : PuncturedClient} {rowLength times : Nat}
    (isThree : session.client.layers = ofThree (some (.puncturedSets client)) rowLength none)
    (numbers : client.HasNumbersFor (times + 1)) {known : Table}
    (ready : session.client.layers.ReadyFor known) (fair : session.tape.Fair) :
    ∃ position < 3, ∀ key, session.client.positions.find? key = some position →
      session.CanRead key (times + 1) := by
  obtain ⟨position, inside, covers⟩ :=
    exists_covered_ofThree isThree ready (hasNumbersLeft_ofThree isThree numbers)
  exact ⟨position, inside, fun key found =>
    ⟨⟨client, rowLength, numbers, isThree⟩, ⟨position, inside, found, covers⟩, fair⟩⟩

variable [Replica σ]

/-- The first update of a client whose smallest layer has one row, from a server with three. With
the labels of the tape in a circle there are numbers for two reads. -/
theorem exists_update_ofThree
    (made : StoreClient.make { smallest := some 1 } = .ok session.client)
    (keeps : server.Keeps history) (short : server.log.entries.length < 2 ^ 31)
    (rowCount : server.rowCount = 3)
    (updates : ∀ request, Replica.keyUpdate request session.servers.left =
      (server.keyUpdate request, session.servers.left))
    (hints : ∀ request, Replica.layerHint request session.servers.left =
      (server.table.layerHint request, session.servers.left))
    (tape : session.tape = .circle) :
    ∃ after client, session.update = (.ok (), after) ∧ after.servers = session.servers ∧
      after.tape.word = Tape.circle.word ∧ after.client.AgreesWith server ∧
      after.client.layers = ofThree (some (.puncturedSets client)) server.table.rowLength none ∧
      client.HasNumbersFor 2 := by
  have nothing := StoreClient.knowsNothing_of_make made
  have isEmpty : session.client.layers = empty .puncturedSets 1 Nat.one_pos := by
    have isClient : _ = session.client := Except.ok.inj made
    rw [← isClient]
    rfl
  obtain ⟨update, isUpdate⟩ :
      ∃ update, server.keyUpdate session.client.updateRequest = .ok update :=
    KeyUpdate.exists_ofLog_eq_ok short _ _
  obtain ⟨-, -, rowLength, -, -, -⟩ := KeyUpdate.ofLog_eq_ok isUpdate
  have notBehind : session.client.log.defragmented ≤ server.log.defragmented := by
    rw [nothing.log]
    exact Nat.zero_le _
  obtain ⟨count, client, processed, agrees, retains⟩ :=
    StoreClient.process_keyUpdate (nothing.knows history) keeps notBehind isUpdate
  obtain ⟨layers, isCount⟩ :
      client.layers = empty .puncturedSets 1 Nat.one_pos ∧ count = server.positions.rowCount := by
    rcases retains with ⟨layers, count⟩ | ⟨layers, -, count⟩
    · exact ⟨by rw [layers, isEmpty]; rfl, count⟩
    · rw [nothing.positions] at count
      exact ⟨by rw [layers, isEmpty], (Nat.zero_add _).symm.trans count⟩
  have three : count = 3 := by
    rw [isCount, keeps.locates.rowCount, ← Table.rowCount_eq]
    exact rowCount
  obtain ⟨hint, inner, later, isHint, installed, word, -, -, left⟩ := exists_hint_ofThree rowCount
  have reply : Replica.keyUpdate session.client.updateRequest session.servers.left =
      (.ok update, session.servers.left) := by
    rw [updates, isUpdate]
  have given : Replica.layerHint ⟨.puncturedSets Tape.circle.label.1 setMultiplier, 0, 3⟩
      session.servers.left = (.ok hint, session.servers.left) := by
    rw [hints, isHint]
  have stepped : client.layers.update count update.rowLength session.tape =
      (some ⟨.puncturedSets Tape.circle.label.1 setMultiplier, 0, 3⟩,
        ofThree none server.table.rowLength (some 0), Tape.circle.label.2) := by
    rw [layers, three, rowLength, tape, update_empty]
  obtain ⟨statistics, updated⟩ := update_of_hint reply processed (by omega) stepped given installed
    (missing_ofThree _ _ _)
  exact ⟨_, inner, updated, rfl, word, ⟨agrees.log, agrees.positions⟩, rfl, left⟩

end ThreeRows

/-- A server with three keys, all of which get other rows by the next call. -/
theorem exists_server_of_three_keys :
    ∃ (server : KeyServer) (again : KeyServer.Call),
      KeyServer.make { ratio := .infinite } [1, 2, 3] [[1], [2], [3]] = .ok server ∧
      again.HasContent ∧ server.rowCount = 3 ∧ server.log.entries.length < 2 ^ 31 ∧
      (again.perform server).2.log.defragmented = server.log.defragmented ∧
      ∀ position < 3, ∃ key row newRow, server.positions.find? key = some position ∧
        server.row key = .ok row ∧ (again.perform server).2.row key = .ok newRow ∧
        row ≠ newRow := by
  let again := KeyServer.Call.add [1, 2, 3] [[4], [5], [6]]
  have works : (KeyServer.make { ratio := .infinite } [1, 2, 3] [[1], [2], [3]]).toOption.map
      (fun server =>
        let next := (again.perform server).2
        ((server.rowCount, server.log.entries.length, server.log.defragmented,
          next.log.defragmented), [1, 2, 3].map server.positions.find?, [1, 2, 3].map server.row,
          [1, 2, 3].map next.row)) =
      some ((3, 3, 0, 0), [some 0, some 1, some 2], [.ok [1], .ok [2], .ok [3]],
        [.ok [4], .ok [5], .ok [6]]) := by cbv
  cases made : KeyServer.make { ratio := .infinite } [1, 2, 3] [[1], [2], [3]] with
  | error failure =>
      rw [made] at works
      cases works
  | ok server =>
      rw [made] at works
      simp only [Except.toOption, Option.map_some, Option.some.injEq, Prod.mk.injEq, List.map_cons,
        List.map_nil, List.cons.injEq, and_true] at works
      obtain ⟨⟨rowCount, entries, serverEnd, nextEnd⟩, ⟨firstAt, secondAt, thirdAt⟩,
        ⟨firstRow, secondRow, thirdRow⟩, firstNew, secondNew, thirdNew⟩ := works
      refine ⟨server, again, rfl, by simp [again, KeyServer.Call.HasContent], rowCount,
        by rw [entries]; decide, nextEnd.trans serverEnd.symm, fun position inside => ?_⟩
      interval_cases position
      · exact ⟨1, [1], [4], firstAt, firstRow, firstNew, by decide⟩
      · exact ⟨2, [2], [5], secondAt, secondRow, secondNew, by decide⟩
      · exact ⟨3, [3], [6], thirdAt, thirdRow, thirdNew, by decide⟩

/-- A read in a session in use, while the servers have not compacted since the client's last
update, gives what the servers held then: that the key is not there, or its row. Only a layer
that is read with punctured sets may refuse the row instead, and only a tape that is not fair
ends the search for a set. The servers are alike, so the end of the left one's compacted prefix
is that of both. -/
theorem InUse.read_eq_held {session : Session KeyServer} {held : Key → Outcome Row}
    (inUse : InUse session held)
    (still : session.servers.left.log.defragmented = session.client.log.defragmented)
    (left : session.client.layers.HasNumbersLeft) (key : Key) :
    held key = .error (.keyNotFound key) ∧ (session.read key).1 = .error (.keyNotFound key) ∨
      ∃ row position, held key = .ok row ∧
        session.client.positions.find? key = some position ∧
        ((session.read key).1 = .ok row ∨
          (∃ layer ∈ session.client.layers.active, layer.scheme = .puncturedSets ∧
            layer.holds position = true ∧
            (session.read key).1 = .error (.notCovered (position - layer.first))) ∨
          (session.read key).1 = .error .exhausted ∧ ¬ session.tape.Fair) := by
  obtain ⟨known, remembers, rfl⟩ := inUse.remembers
  have end_eq : session.client.log.defragmented = known.log.defragmented := by
    rw [remembers.agrees.log]
    rfl
  obtain ⟨-, absent | ⟨row, position, isRow, found, gives⟩⟩ :=
    remembers.read_of_still (still.trans end_eq) left key
  · exact Or.inl absent
  · exact Or.inr ⟨row, position, isRow, found, gives.imp_right error_of_refusal⟩

/-- A key that got another row since the client's last update. The rows of that update are read with
punctured sets. -/
theorem read_before_next_update :
    ∃ session held key row newRow, InUse session held ∧
      session.servers.left.log.defragmented = session.client.log.defragmented ∧
      session.client.layers.HasNumbersLeft ∧
      session.client.layers.active.map Layer.scheme = [.puncturedSets] ∧
      held key = .ok row ∧ session.servers.left.row key = .ok newRow ∧ row ≠ newRow ∧
      (session.read key).1 = .ok row := by
  obtain ⟨server, again, made, content, rowCount, short, sameEnd, keys⟩ :=
    exists_server_of_three_keys
  obtain ⟨client, madeClient⟩ : ∃ client, StoreClient.make { smallest := some 1 } = .ok client :=
    ⟨_, rfl⟩
  have positive : ∀ row ∈ [[1], [2], [3]], 0 < (row : Row).length := by simp
  let begun : Session KeyServer := ⟨client, .both server, .circle⟩
  have isClient : StoreClient.make { smallest := some 1 } = .ok begun.client := madeClient
  have begins : begun.BeginsAlike := ⟨⟨_, madeClient⟩, _, _, _, server, positive, made, rfl⟩
  obtain ⟨⟨caughtUp, _, tape⟩, inner, updated, rfl, word, agrees, layers, numbers⟩ :=
    exists_update_ofThree isClient (KeyServer.keeps_make positive made) short rowCount
      (fun _ => rfl) (fun _ => rfl) rfl
  have few : server.rowCount < 2 ^ 32 := by
    rw [rowCount]
    decide
  have inUse := ((InUse.start begins).update few updated).change again content
  have remembers := begins.remembers.update few updated
  -- The calls of the servers leave what the client has.
  set session : Session KeyServer := ⟨caughtUp, (Sides.both server).map _, tape⟩
  have agrees : session.client.AgreesWith server := agrees
  have layers : session.client.layers =
      .ofThree (some (.puncturedSets inner)) server.table.rowLength none := layers
  have still : session.servers.left.log.defragmented = session.client.log.defragmented := by
    rw [agrees.log]
    exact sameEnd
  have ready : session.client.layers.ReadyFor server.table := remembers.layers rfl
  have fair : session.tape.Fair := (Tape.fair_congr word).mpr Tape.fair_circle
  obtain ⟨position, inside, canReadAt⟩ := exists_canRead layers numbers ready fair
  obtain ⟨key, row, newRow, isPosition, isRow, isNew, differ⟩ := keys position inside
  have canRead : session.CanRead key 2 := by
    apply canReadAt
    rwa [agrees.positions]
  have left := canRead.hasNumbersLeft
  refine ⟨session, _, key, row, newRow, inUse, still, left, canRead.scheme_eq, isRow, isNew,
    differ, ?_⟩
  have isRead := canRead.eq_ok isRow ((remembers.change content).read_of_still sameEnd left key).2
  rcases inUse.read_eq_held still left key with
    ⟨absent, -⟩ | ⟨other, _, isOther, -, given | ⟨_, -, -, -, refused⟩ | ⟨exhausted, -⟩⟩
  · cases isRow.symm.trans absent
  · cases isRow.symm.trans isOther
    exact given
  · cases isRead.symm.trans refused
  · cases isRead.symm.trans exhausted

end Session

end PrivateRetrieval
