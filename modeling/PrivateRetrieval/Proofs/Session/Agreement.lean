/-
# Agreement with the left server

A client stays in step with the left server, however many calls and compactions there are
between two of its own calls. The states compared are far apart, so the invariant does not
compare them: it names one history, of which the server keeps all and the client knows a part.
The client's compacted prefix never ends later than the server's, because only updates move it,
and they move it to where the server's ends.

The right server is not asked for updates. It may change in any way.
-/

import PrivateRetrieval.Proofs.Client.CatchingUp
import PrivateRetrieval.Proofs.Session.Frame

namespace PrivateRetrieval

/-- A client catches up with a server: the server answers its request, the client accepts the
answer, and afterwards the two agree. -/
def StoreClient.CatchesUpWith (client : StoreClient) (server : KeyServer) : Prop :=
  ∃ update count after, server.keyUpdate client.updateRequest = .ok update ∧
    client.process update = (.ok count, after) ∧ after.AgreesWith server

/-- The timestamps of a client's log are in order, and so are those of the server's, and none of
the client's is later than the one of the server. So no difference of timestamps is negative. -/
structure StoreClient.StandsBehind (client : StoreClient) (server : KeyServer) : Prop where
  initial_le : client.log.initial ≤ client.log.defragmented
  defragmented_le : client.log.defragmented ≤ client.log.next
  serverInitial_le : server.log.initial ≤ server.log.defragmented
  serverDefragmented_le : server.log.defragmented ≤ server.log.next
  defragmented_le_server : client.log.defragmented ≤ server.log.defragmented
  next_le_server : client.log.next ≤ server.log.next

namespace Session

/-- A session that begins: the left server is new and has rows of a positive length, and the client
knows nothing yet. -/
structure Begins (session : Session KeyServer) : Prop where
  client : ∃ configuration, StoreClient.make configuration = .ok session.client
  left : ∃ configuration keys rows, (∀ row ∈ rows, 0 < row.length) ∧
    KeyServer.make configuration keys rows = .ok session.servers.left

/-- The sessions that changes of the left server and calls of the client lead to, in any order.
What a client call returns does not matter. -/
inductive Reached : Session KeyServer → Prop
  | start {session : Session KeyServer} : session.Begins → Reached session
  | change {session : Session KeyServer} {call : KeyServer.Call} {left : KeyServer}
      (right : KeyServer) : Reached session → call.HasContent →
      call.perform session.servers.left = (.ok (), left) →
      Reached { session with servers := ⟨left, right⟩ }
  | update {session : Session KeyServer} : Reached session → Reached session.update.2
  | restart {session : Session KeyServer} : Reached session → Reached session.restart.2
  | read {session : Session KeyServer} (key : Key) : Reached session → Reached (session.read key).2

/-- The left server keeps a history of which the client knows a part, and the client's compacted
prefix does not end later than the server's. -/
def Follows (session : Session KeyServer) : Prop :=
  ∃ history known, session.servers.left.Keeps history ∧ session.client.Knows history known ∧
    session.client.log.defragmented ≤ session.servers.left.log.defragmented

/-- What matters to following the left server is not moved by reads and hints. -/
theorem Follows.of_alike {before after : Session KeyServer} (follows : before.Follows)
    (alike : AlikeButLayers before after) : after.Follows := by
  obtain ⟨history, known, keeps, knows, earlier⟩ := follows
  refine ⟨history, known, ?_, ⟨knows.within, ?_, ?_, ?_⟩, ?_⟩
  · rw [alike.servers]
    exact keeps
  · rw [alike.log]
    exact knows.inside
  · rw [alike.log]
    exact knows.log
  · rw [alike.log, alike.positions]
    exact knows.positions
  · rw [alike.log, alike.servers]
    exact earlier

/-- A client that forgets what it knows follows as before. -/
theorem Follows.forget {session : Session KeyServer} (follows : session.Follows) :
    Follows { session with client := session.client.forget .empty } := by
  obtain ⟨history, -, keeps, -, -⟩ := follows
  exact ⟨history, 0, keeps, session.client.knowsNothing_forget.knows history, Nat.zero_le _⟩

/-- A client that agrees with the left server follows it. -/
theorem follows_of_agreesWith {session : Session KeyServer} {history : List (Entry Row)}
    (keeps : session.servers.left.Keeps history)
    (agrees : session.client.AgreesWith session.servers.left) : session.Follows := by
  refine ⟨history, history.length, keeps, agrees.knows keeps, ?_⟩
  rw [agrees.log]
  exact Nat.le_refl _

/-- Who follows the left server catches up with it, unless the log is too long to be sent. -/
theorem Follows.catchesUpWith {session : Session KeyServer} (follows : session.Follows)
    (short : session.servers.left.log.entries.length < 2 ^ 31) :
    session.client.CatchesUpWith session.servers.left := by
  obtain ⟨history, known, keeps, knows, earlier⟩ := follows
  obtain ⟨update, made⟩ := KeyUpdate.exists_ofLog_eq_ok short
    session.servers.left.table.rowLength session.client.updateRequest
  obtain ⟨count, after, processed, agrees, -⟩ :=
    StoreClient.process_keyUpdate knows keeps earlier made
  exact ⟨update, count, after, made, processed, agrees⟩

theorem Follows.standsBehind {session : Session KeyServer} (follows : session.Follows) :
    session.client.StandsBehind session.servers.left := by
  obtain ⟨history, known, keeps, knows, earlier⟩ := follows
  have serverInitial := Log.initial_le_defragmented_ofHistory keeps.inside
  rw [← keeps.log] at serverInitial
  refine ⟨knows.initial_le, ?_, serverInitial, ?_, earlier, ?_⟩
  · rw [knows.next]
    exact knows.inside
  · rw [keeps.next]
    exact keeps.inside
  · rw [knows.next, keeps.next]
    exact knows.within

/-- An update that the server answers ends in agreement. Hints that could not be fetched afterwards
do not matter to it. -/
theorem update_of_keyUpdate {session : Session KeyServer} (follows : session.Follows)
    {update : KeyUpdate}
    (made : session.servers.left.keyUpdate session.client.updateRequest = .ok update) :
    session.update.2.client.AgreesWith session.servers.left := by
  obtain ⟨history, known, keeps, knows, earlier⟩ := follows
  obtain ⟨count, after, processed, agrees, -⟩ :=
    StoreClient.process_keyUpdate knows keeps earlier made
  have alike := alike_update KeyServer.faithful_eq (KeyServer.reply_of_keyUpdate made) processed
  exact ⟨alike.log.trans agrees.log, alike.positions.trans agrees.positions⟩

theorem Follows.update {session : Session KeyServer} (follows : session.Follows) :
    session.update.2.Follows := by
  cases made : session.servers.left.keyUpdate session.client.updateRequest with
  | error failure =>
      obtain ⟨refused, same⟩ := update_of_refused (KeyServer.reply_of_keyUpdate made)
      rw [same, refused]
      exact follows
  | ok update =>
      have agrees := update_of_keyUpdate follows made
      obtain ⟨history, -, keeps, -, -⟩ := follows
      rw [← session.servers_update] at keeps agrees
      exact follows_of_agreesWith keeps agrees

/-- A change of the left server is seen by none but the server. -/
theorem Follows.change {session : Session KeyServer} (follows : session.Follows)
    {call : KeyServer.Call} (content : call.HasContent) {left : KeyServer} (right : KeyServer)
    (succeeded : call.perform session.servers.left = (.ok (), left)) :
    Follows { session with servers := ⟨left, right⟩ } := by
  obtain ⟨history, known, keeps, knows, earlier⟩ := follows
  obtain ⟨keepsAfter, later⟩ := keeps.perform content succeeded
  exact ⟨_, known, keepsAfter, knows.append call.entries, earlier.trans later⟩

theorem Begins.follows {session : Session KeyServer} (begins : session.Begins) :
    session.Follows := by
  obtain ⟨configuration, made⟩ := begins.client
  obtain ⟨serverConfiguration, keys, rows, positive, madeServer⟩ := begins.left
  have nothing := StoreClient.knowsNothing_of_make made
  refine ⟨_, 0, KeyServer.keeps_make positive madeServer, nothing.knows _, ?_⟩
  rw [nothing.log]
  exact Nat.zero_le _

/-- In every session that is reached the client follows the left server. -/
theorem Reached.follows {session : Session KeyServer} (reached : Reached session) :
    session.Follows := by
  induction reached with
  | start begins => exact begins.follows
  | change right _ content succeeded ih => exact ih.change content right succeeded
  | update _ ih => exact ih.update
  | restart _ ih => exact ih.forget.update
  | read key _ ih => exact ih.of_alike (alike_read _ key)

/-- In every session that is reached an honest update is accepted and brings the client's log
and positions to those of the left server, whether the client goes on from what it knows or
begins anew, and the timestamps by which one of the ways to catch up is chosen are in order. -/
theorem Reached.agreesWith_after_update {session : Session KeyServer} (reached : Reached session)
    (short : session.servers.left.log.entries.length < 2 ^ 31) :
    session.client.StandsBehind session.servers.left ∧
      session.client.CatchesUpWith session.servers.left ∧
      (session.client.forget .empty).CatchesUpWith session.servers.left ∧
      session.update.2.client.AgreesWith session.servers.left ∧
      session.restart.2.client.AgreesWith session.servers.left := by
  have follows := reached.follows
  have anew := follows.forget
  have agrees : ∀ session : Session KeyServer, session.Follows →
      session.servers.left.log.entries.length < 2 ^ 31 →
      session.update.2.client.AgreesWith session.servers.left := by
    intro session follows short
    obtain ⟨update, -, -, made, -, -⟩ := follows.catchesUpWith short
    exact update_of_keyUpdate follows made
  exact ⟨follows.standsBehind, follows.catchesUpWith short, anew.catchesUpWith short,
    agrees session follows short, agrees _ anew short⟩

/-- A client that has caught up once, and a server that has since compacted its log beyond what the
client knows. -/
theorem agreesWith_after_compaction :
    ∃ session : Session KeyServer, Reached session ∧
      session.servers.left.log.entries.length < 2 ^ 31 ∧
      session.client.log.next = 2 ∧ session.servers.left.log.defragmented = 3 ∧
      session.update.2.client.AgreesWith session.servers.left := by
  have works : ((KeyServer.make { ratio := .finite 1 } [2, 1] [[1], [2]]).toOption.bind
      fun start => match (KeyServer.Call.add [1] [[3]]).perform start with
        | (.ok (), left) => some (start.log.next, start.log.entries.length,
            left.log.defragmented, left.log.entries.length)
        | _ => none) = some (2, 2, 3, 2) := by cbv
  cases made : KeyServer.make { ratio := .finite 1 } [2, 1] [[1], [2]] with
  | error failure =>
      rw [made] at works
      cases works
  | ok start =>
      rw [made] at works
      rcases done : (KeyServer.Call.add [1] [[3]]).perform start with ⟨failure | _, left⟩
      · simp [Except.toOption, done] at works
      · simp only [Except.toOption, Option.bind_some, done, Option.some.injEq, Prod.mk.injEq]
          at works
        obtain ⟨startNext, startLength, leftEnd, leftLength⟩ := works
        cases madeClient : StoreClient.make { scheme := .plain } with
        | error failure => cases madeClient
        | ok client =>
            have begins : Begins ⟨client, ⟨start, start⟩, ⟨fun _ => 0, 0⟩⟩ :=
              ⟨⟨_, madeClient⟩, ⟨_, _, _, by simp, made⟩⟩
            have startShort : start.log.entries.length < 2 ^ 31 := by
              rw [startLength]
              decide
            have leftShort : left.log.entries.length < 2 ^ 31 := by
              rw [leftLength]
              decide
            obtain ⟨-, -, -, agrees, -⟩ :=
              (Reached.start begins).agreesWith_after_update startShort
            set begun : Session KeyServer := ⟨client, ⟨start, start⟩, ⟨fun _ => 0, 0⟩⟩
            have performed : (KeyServer.Call.add [1] [[3]]).perform
                begun.update.2.servers.left = (.ok (), left) := by
              rw [begun.servers_update]
              exact done
            have content : (KeyServer.Call.add [1] [[3]]).HasContent := by
              simp [KeyServer.Call.HasContent]
            have reached := (Reached.start begins).update.change left content performed
            obtain ⟨-, -, -, agreesAfter, -⟩ := reached.agreesWith_after_update leftShort
            refine ⟨_, reached, leftShort, ?_, leftEnd, agreesAfter⟩
            show begun.update.2.client.log.next = 2
            rw [agrees.log, Log.next_forget]
            exact startNext

end Session

end PrivateRetrieval
