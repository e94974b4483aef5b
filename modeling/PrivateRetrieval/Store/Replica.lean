/-
# Replicas

A client of the store talks to two replicas. What a client may rely on is how a replica is
called, not what it answers: a replica may lie, fail, or answer differently the second time. So
a replica is any state that can be asked, and each answer comes with the state after it.

The honest replica is the server itself, which no question changes. A prepared replica gives
replies that were laid ready for it before it asks the one behind it. It serves to state what a
client does when a replica misbehaves.
-/

import PrivateRetrieval.Store.KeyServer

namespace PrivateRetrieval

/-- What can be asked as a replica of a store. -/
class Replica (σ : Type) where
  /-- Ask for the entries that a client has not seen. -/
  keyUpdate : KeyUpdateRequest → σ → Outcome KeyUpdate × σ
  /-- Ask for the hint of a layer. -/
  layerHint : LayerHintRequest → σ → Outcome Hint × σ
  /-- Ask one query of every layer. -/
  layerAnswer : LayeredQuery → σ → Outcome (List Answer) × σ

/-- The honest replica. -/
instance : Replica KeyServer where
  keyUpdate request server := (server.keyUpdate request, server)
  layerHint request server := (server.table.layerHint request, server)
  layerAnswer query server := (server.table.layerAnswer query, server)

/-- A replica that gives prepared replies first. Where a hint or an answer is prepared, its absence
stands for a replica that fails. -/
structure PreparedReplica (σ : Type) where
  /-- The replica that is asked when no reply is prepared. -/
  behind : σ
  updates : List KeyUpdate := []
  hints : List (Option Hint) := []
  answers : List (Option (List Answer)) := []

namespace PreparedReplica

/-- A prepared reply, which may be a failure. -/
def reply {α : Type} (prepared : Option α) : Outcome α :=
  match prepared with
  | some value => .ok value
  | none => .error .unexpectedResponse

instance {σ : Type} [Replica σ] : Replica (PreparedReplica σ) where
  keyUpdate request replica :=
    match replica.updates with
    | update :: updates => (.ok update, { replica with updates })
    | [] =>
        let (result, behind) := Replica.keyUpdate request replica.behind
        (result, { replica with behind })
  layerHint request replica :=
    match replica.hints with
    | hint :: hints => (reply hint, { replica with hints })
    | [] =>
        let (result, behind) := Replica.layerHint request replica.behind
        (result, { replica with behind })
  layerAnswer query replica :=
    match replica.answers with
    | answer :: answers => (reply answer, { replica with answers })
    | [] =>
        let (result, behind) := Replica.layerAnswer query replica.behind
        (result, { replica with behind })

end PreparedReplica

end PrivateRetrieval
