/-
# What reads and hints leave alone

Fetching hints and reading rows move the layers, the tape and the statistics of a session. What
the client knows of the log stays, and so do honest servers, which keep nothing between questions:
what they reply decides alone how a call goes on.

Between a client and a server there may be something that fails. It passes on what the server says
of its log, but a hint may get lost. So a replica may have states that stand for one server, and
which of them it is in decides what gets lost. A call moves it from one of them to another one.
-/

import PrivateRetrieval.Store.Session

namespace PrivateRetrieval

/-- A relation between the states of a replica and servers, such that a state passes on the updates
of its server, and hints of the server or none. The state after an answer has the same server. -/
structure Replica.Faithful {σ : Type} [Replica σ] (standsFor : σ → KeyServer → Prop) : Prop where
  keyUpdate : ∀ {replica : σ} {server : KeyServer}, standsFor replica server →
    ∀ request, (Replica.keyUpdate request replica).1 = server.keyUpdate request ∧
      standsFor (Replica.keyUpdate request replica).2 server
  layerHint : ∀ {replica : σ} {server : KeyServer}, standsFor replica server →
    ∀ request, ((∃ failure, (Replica.layerHint request replica).1 = .error failure) ∨
        (Replica.layerHint request replica).1 = server.table.layerHint request) ∧
      standsFor (Replica.layerHint request replica).2 server

/-- A server that is asked as a replica answers as it does, and stays as it is. -/
theorem KeyServer.reply_of_keyUpdate {server : KeyServer} {request : KeyUpdateRequest}
    {result : Outcome KeyUpdate} (made : server.keyUpdate request = result) :
    Replica.keyUpdate request server = (result, server) :=
  Prod.ext made rfl

/-- A server stands for itself. -/
theorem KeyServer.faithful_eq : @Replica.Faithful KeyServer _ Eq where
  keyUpdate := by
    rintro _ server rfl request
    exact ⟨rfl, rfl⟩
  layerHint := by
    rintro _ server rfl request
    exact ⟨Or.inr rfl, rfl⟩

/-- A server behind a replica that is prepared to lose some hints and to do nothing else. -/
structure PreparedReplica.OnlyLoses (replica : PreparedReplica KeyServer) (server : KeyServer) :
    Prop where
  behind : replica.behind = server
  updates : replica.updates = []
  hints : ∀ hint ∈ replica.hints, hint = none

/-- A server behind a replica that loses the next so many hints. -/
def KeyServer.losing (server : KeyServer) (count : Nat) : PreparedReplica KeyServer :=
  { behind := server, hints := List.replicate count none }

theorem KeyServer.onlyLoses_losing (server : KeyServer) (count : Nat) :
    (server.losing count).OnlyLoses server :=
  ⟨rfl, rfl, fun _ member => (List.mem_replicate.mp member).2⟩

theorem PreparedReplica.faithful_onlyLoses : Replica.Faithful PreparedReplica.OnlyLoses where
  keyUpdate := by
    rintro ⟨_, updates, hints, answers⟩ server ⟨rfl, rfl, lost⟩ request
    exact ⟨rfl, rfl, rfl, lost⟩
  layerHint := by
    rintro ⟨_, updates, hints, answers⟩ server ⟨rfl, rfl, lost⟩ request
    cases hints with
    | nil => exact ⟨Or.inr rfl, rfl, rfl, lost⟩
    | cons hint rest =>
        obtain ⟨rfl, lostRest⟩ := List.forall_mem_cons.mp lost
        exact ⟨Or.inl ⟨_, rfl⟩, rfl, rfl, lostRest⟩

namespace Session

variable {σ : Type} {standsFor : σ → KeyServer → Prop}

/-- Two sessions agree in all but the layers, the statistics, the tape and the state of the left
replica, which stands for the same servers as before. -/
structure Alike (standsFor : σ → KeyServer → Prop) (before after : Session σ) : Prop where
  configuration : after.client.configuration = before.client.configuration
  log : after.client.log = before.client.log
  positions : after.client.positions = before.client.positions
  right : after.servers.right = before.servers.right
  left : ∀ server, standsFor before.servers.left server → standsFor after.servers.left server

namespace Alike

theorem refl (session : Session σ) : Alike standsFor session session :=
  ⟨rfl, rfl, rfl, rfl, fun _ stands => stands⟩

theorem trans {first second third : Session σ} (earlier : Alike standsFor first second)
    (later : Alike standsFor second third) : Alike standsFor first third where
  configuration := later.configuration.trans earlier.configuration
  log := later.log.trans earlier.log
  positions := later.positions.trans earlier.positions
  right := later.right.trans earlier.right
  left := fun server stands => later.left server (earlier.left server stands)

end Alike

variable [Replica σ]

/-- A hint that the left replica refuses changes the statistics and the replica only. -/
theorem fetchHint_of_refused {session : Session σ} {request : LayerHintRequest}
    {failure : Failure} {left : σ}
    (reply : Replica.layerHint request session.servers.left = (.error failure, left)) :
    ∃ statistics, session.fetchHint request =
      (.error failure, { session with
        client := { session.client with statistics }
        servers := { session.servers with left } }) := by
  simp only [fetchHint, reply]
  exact ⟨_, rfl⟩

/-- A hint that the left replica gives is installed. -/
theorem fetchHint_of_hint {session : Session σ} {request : LayerHintRequest} {hint : Hint}
    {left : σ} {result : Outcome Unit} {layers : Layers} {tape : Tape}
    (reply : Replica.layerHint request session.servers.left = (.ok hint, left))
    (installed : session.client.layers.installHint hint session.tape = (result, layers, tape)) :
    ∃ statistics, session.fetchHint request =
      (result, { session with
        client := { session.client with layers, statistics }
        servers := { session.servers with left }
        tape }) := by
  simp only [fetchHint, reply, installed]
  exact ⟨_, rfl⟩

section Fetching

variable (faithful : Replica.Faithful standsFor) (session : Session σ)
include faithful

theorem alike_fetchHint (request : LayerHintRequest) :
    Alike standsFor session (session.fetchHint request).2 := by
  have left : ∀ server, standsFor session.servers.left server →
      standsFor (Replica.layerHint request session.servers.left).2 server :=
    fun server stands => (faithful.layerHint stands request).2
  rcases reply : Replica.layerHint request session.servers.left with ⟨failure | hint, replica⟩
  · obtain ⟨statistics, fetched⟩ := fetchHint_of_refused reply
    rw [reply] at left
    rw [fetched]
    exact ⟨rfl, rfl, rfl, rfl, left⟩
  · obtain ⟨statistics, fetched⟩ := fetchHint_of_hint reply rfl
    rw [reply] at left
    rw [fetched]
    exact ⟨rfl, rfl, rfl, rfl, left⟩

theorem alike_follow (step : Layers → Tape → Option LayerHintRequest × Layers × Tape) :
    Alike standsFor session (session.follow step).2 := by
  rw [follow]
  rcases step session.client.layers session.tape with ⟨request | request, layers, tape⟩
  · exact ⟨rfl, rfl, rfl, rfl, fun _ stands => stands⟩
  · have moved := alike_fetchHint faithful
      { session with client := { session.client with layers }, tape } request
    exact ⟨moved.configuration, moved.log, moved.positions, moved.right, moved.left⟩

theorem alike_fetchMissing (allowed : Nat) :
    Alike standsFor session (session.fetchMissing allowed).2 := by
  induction allowed generalizing session with
  | zero => exact .refl session
  | succ allowed ih =>
      have moved := alike_follow faithful session Layers.missing
      rw [fetchMissing]
      rcases followed : session.follow Layers.missing with ⟨failure | _ | _, next⟩
      · rwa [followed] at moved
      · rwa [followed] at moved
      · rw [followed] at moved
        exact moved.trans (ih next)

theorem alike_placeRows (count rowLength : Nat) :
    Alike standsFor session (session.placeRows count rowLength).2 := by
  rw [placeRows]
  split
  · exact .refl session
  · exact alike_follow faithful session _

end Fetching

/-- An update that the left replica refuses changes nothing but the replica. -/
theorem update_of_refused {session : Session σ} {failure : Failure} {left : σ}
    (reply : Replica.keyUpdate session.client.updateRequest session.servers.left =
      (.error failure, left)) :
    session.catchUp =
        (.error failure, { session with servers := { session.servers with left } }) ∧
      session.update = session.catchUp := by
  simp only [update, catchUp, reply, and_self]

/-- An update that is answered and accepted goes on to place the new rows. -/
theorem catchUp_eq_placeRows {session : Session σ} {update : KeyUpdate} {left : σ} {count : Nat}
    {client : StoreClient}
    (reply : Replica.keyUpdate session.client.updateRequest session.servers.left =
      (.ok update, left))
    (processed : session.client.process update = (.ok count, client)) :
    session.catchUp = placeRows { session with client, servers := { session.servers with left } }
      count update.rowLength := by
  simp only [catchUp, reply, processed]

/-- After the client has taken up the log, an update moves no more than what hints move. -/
theorem alike_update (faithful : Replica.Faithful standsFor) {session : Session σ}
    {update : KeyUpdate} {left : σ} {count : Nat} {client : StoreClient}
    (reply : Replica.keyUpdate session.client.updateRequest session.servers.left =
      (.ok update, left))
    (processed : session.client.process update = (.ok count, client)) :
    Alike standsFor { session with client, servers := { session.servers with left } }
      session.update.2 := by
  have placed := alike_placeRows faithful
    { session with client, servers := { session.servers with left } } count update.rowLength
  rw [← catchUp_eq_placeRows reply processed] at placed
  rw [Session.update]
  rcases begun : session.catchUp with ⟨failure | _, next⟩
  · rwa [begun] at placed
  · rw [begun] at placed
    exact placed.trans (alike_fetchMissing faithful next _)

/-! ## Reads -/

/-- What the replicas reply to the queries of a read. -/
def replies (session : Session σ) (queries : Sides LayeredQuery) :
    Sides (Outcome (List Answer)) :=
  ⟨(Replica.layerAnswer queries.left session.servers.left).1,
    (Replica.layerAnswer queries.right session.servers.right).1⟩

/-- The replicas after they were asked the queries of a read. -/
def asked (session : Session σ) (queries : Sides LayeredQuery) : Sides σ :=
  ⟨(Replica.layerAnswer queries.left session.servers.left).2,
    (Replica.layerAnswer queries.right session.servers.right).2⟩

/-- The row that is found in two replies, if both are answers. -/
def rowOfReplies (layers : Layers) (pending : PendingLayer)
    (replies : Sides (Outcome (List Answer))) : Outcome (Row × Layers) := do
  let answers : Sides (List Answer) := ⟨← replies.left, ← replies.right⟩
  layers.reconstruct pending answers

/-- What a read can come to: the key is unknown, the layers refuse its position, the row is not
found in what the replicas reply, or it is. -/
inductive Reads (session : Session σ) (key : Key) : Outcome Row → Session σ → Prop
  | unknown : session.client.positions.find? key = none →
      Reads session key (.error (.keyNotFound key)) session
  | refused {position : Nat} {failure : Failure} {layers : Layers} {tape : Tape} :
      session.client.positions.find? key = some position →
      session.client.layers.query position session.tape = (.error failure, layers, tape) →
      Reads session key (.error failure)
        { session with client := { session.client with layers }, tape }
  | failed {position : Nat} {queries : Sides LayeredQuery} {pending : PendingLayer}
      {layers : Layers} {tape : Tape} {failure : Failure} (statistics : Statistics) :
      session.client.positions.find? key = some position →
      session.client.layers.query position session.tape = (.ok (queries, pending), layers, tape) →
      rowOfReplies layers pending (session.replies queries) = .error failure →
      Reads session key (.error failure)
        { client := { session.client with layers, statistics }
          servers := session.asked queries
          tape }
  | found {position : Nat} {queries : Sides LayeredQuery} {pending : PendingLayer}
      {layers after : Layers} {tape : Tape} {row : Row} (statistics : Statistics) :
      session.client.positions.find? key = some position →
      session.client.layers.query position session.tape = (.ok (queries, pending), layers, tape) →
      rowOfReplies layers pending (session.replies queries) = .ok (row, after) →
      Reads session key (.ok row)
        { client := { session.client with layers := after, statistics }
          servers := session.asked queries
          tape }

theorem reads (session : Session σ) (key : Key) :
    Reads session key (session.read key).1 (session.read key).2 := by
  rw [read]
  cases known : session.client.positions.find? key with
  | none => exact .unknown known
  | some position =>
      rcases asks : session.client.layers.query position session.tape
        with ⟨failure | ⟨queries, pending⟩, layers, tape⟩
      · simp only [asks]
        exact .refused known asks
      · rcases result : rowOfReplies layers pending (session.replies queries)
          with failure | ⟨row, after⟩
        · have failed := Reads.failed
            { session.client.statistics with reads := session.client.statistics.reads + 1 }
            known asks result
          rw [rowOfReplies, replies] at result
          simp only [asks, result, settle]
          exact failed
        · have found := Reads.found
            { session.client.statistics with reads := session.client.statistics.reads + 1 }
            known asks result
          rw [rowOfReplies, replies] at result
          simp only [asks, result, settle]
          exact found

section Servers

/-- Two sessions agree in all but the layers, the statistics and the tape. -/
structure AlikeButLayers (before after : Session KeyServer) : Prop where
  configuration : after.client.configuration = before.client.configuration
  log : after.client.log = before.client.log
  positions : after.client.positions = before.client.positions
  servers : after.servers = before.servers

variable (session : Session KeyServer)

theorem AlikeButLayers.refl : AlikeButLayers session session :=
  ⟨rfl, rfl, rfl, rfl⟩

/-- The servers of a session stay if the left one stands for itself before and after. -/
theorem Alike.servers {before after : Session KeyServer} (alike : Alike Eq before after) :
    after.servers = before.servers := by
  have left : after.servers.left = before.servers.left := alike.left _ rfl
  show after.servers = ⟨before.servers.left, before.servers.right⟩
  rw [← left, ← alike.right]

/-- Updates ask the left server, and honest servers do not change when they are asked. -/
theorem servers_update : session.update.2.servers = session.servers := by
  cases made : session.servers.left.keyUpdate session.client.updateRequest with
  | error failure =>
      obtain ⟨refused, same⟩ := update_of_refused (KeyServer.reply_of_keyUpdate made)
      rw [same, refused]
  | ok update =>
      have reply := KeyServer.reply_of_keyUpdate made
      rcases processed : session.client.process update with ⟨failure | count, client⟩
      · simp only [Session.update, catchUp, reply, processed]
      · exact (alike_update KeyServer.faithful_eq reply processed).servers

theorem Reads.alike {session after : Session KeyServer} {key : Key} {result : Outcome Row}
    (reads : Reads session key result after) : AlikeButLayers session after := by
  cases reads with
  | unknown => exact .refl session
  | refused => exact ⟨rfl, rfl, rfl, rfl⟩
  | failed => exact ⟨rfl, rfl, rfl, rfl⟩
  | found => exact ⟨rfl, rfl, rfl, rfl⟩

theorem alike_read (key : Key) : AlikeButLayers session (session.read key).2 :=
  (session.reads key).alike

end Servers

end Session

end PrivateRetrieval
