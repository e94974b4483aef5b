/-
# A store in use

A client of a store, the two servers it talks to, and the tape from which it draws. The left server
gives updates and hints. A read asks both servers.

A failed call leaves a session that can be used further: a hint that could not be fetched is asked
for again by the next update, and a failed read changes no hint.
-/

import PrivateRetrieval.Store.StoreClient

namespace PrivateRetrieval

/-- A client, its two servers, and its randomness. -/
structure Session (σ : Type) where
  client : StoreClient
  servers : Sides σ
  tape : Tape

namespace Session

variable {σ : Type} [Replica σ]

/-- Fetch the hint of a layer. -/
def fetchHint (session : Session σ) (request : LayerHintRequest) : Outcome Unit × Session σ :=
  let requested := session.client.statistics.hintRequests + 1
  let client := { session.client with statistics.hintRequests := requested }
  let (reply, left) := Replica.layerHint request session.servers.left
  let session := { session with client, servers := { session.servers with left } }
  match reply with
  | .error failure => (.error failure, session)
  | .ok hint =>
      let (result, layers, tape) := client.layers.installHint hint session.tape
      (result, { session with client := { client with layers }, tape })

/-- Fetch the hint that a step on the layers asks for, if it asks for one. Returned is whether it
did. -/
def follow (session : Session σ)
    (step : Layers → Tape → Option LayerHintRequest × Layers × Tape) :
    Outcome Bool × Session σ :=
  let (request, layers, tape) := step session.client.layers session.tape
  let session := { session with client := { session.client with layers }, tape }
  match request with
  | none => (.ok false, session)
  | some request =>
      let (result, session) := session.fetchHint request
      (result.map fun _ => true, session)

/-- Fetch missing hints one after the other, so many times at most. A layer that got its hint is
not missing any more, so there need not be more times than layers. -/
def fetchMissing : Nat → Session σ → Outcome Unit × Session σ
  | 0, session => (.ok (), session)
  | allowed + 1, session =>
      match session.follow Layers.missing with
      | (.error failure, session) => (.error failure, session)
      | (.ok false, session) => (.ok (), session)
      | (.ok true, session) => fetchMissing allowed session

/-- Place new rows in layers. If the layer that gets them needs a hint, the hint is fetched. -/
def placeRows (session : Session σ) (count rowLength : Nat) : Outcome Unit × Session σ :=
  if count = 0 then (.ok (), session)
  else
    let (result, session) :=
      session.follow fun layers tape => layers.update count rowLength tape
    (result.map fun _ => (), session)

/-- Take up what the left server's log has and the client has not seen, and place the new rows. -/
def catchUp (session : Session σ) : Outcome Unit × Session σ :=
  let (reply, left) := Replica.keyUpdate session.client.updateRequest session.servers.left
  let session := { session with servers := { session.servers with left } }
  match reply with
  | .error failure => (.error failure, session)
  | .ok update =>
      let (result, client) := session.client.process update
      let session := { session with client }
      match result with
      | .error failure => (.error failure, session)
      | .ok count => session.placeRows count update.rowLength

/-- Catch up with the left server, and make all layers ready. Layers whose hint could not be fetched
earlier are asked for again. -/
def update (session : Session σ) : Outcome Unit × Session σ :=
  match session.catchUp with
  | (.error failure, session) => (.error failure, session)
  | (.ok (), session) => fetchMissing (session.client.layers.slots.length + 1) session

/-- Drop what the client knows, and fetch everything anew. -/
def restart (session : Session σ) : Outcome Unit × Session σ :=
  update { session with client := session.client.forget .empty }

/-- Read the row of a key. -/
def read (session : Session σ) (key : Key) : Outcome Row × Session σ :=
  match session.client.positions.find? key with
  | none => (.error (.keyNotFound key), session)
  | some position =>
      let (result, layers, tape) := session.client.layers.query position session.tape
      let session := { session with client := { session.client with layers }, tape }
      match result with
      | .error failure => (.error failure, session)
      | .ok (queries, pending) =>
          let (left, leftServer) := Replica.layerAnswer queries.left session.servers.left
          let (right, rightServer) := Replica.layerAnswer queries.right session.servers.right
          let reads := session.client.statistics.reads + 1
          let client := { session.client with statistics.reads := reads }
          let (result, layers) := settle client.layers do
            let answers : Sides (List Answer) := ⟨← left, ← right⟩
            client.layers.reconstruct pending answers
          (result, { session with
            client := { client with layers }
            servers := ⟨leftServer, rightServer⟩ })

end Session

end PrivateRetrieval
