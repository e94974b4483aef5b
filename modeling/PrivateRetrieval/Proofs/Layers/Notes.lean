/-
# What queries leave of layers

A query moves the clients of the layers, also if it ends early or if nobody answers it. Only a
client of the punctured scheme has anything to move: it notes which of its stored sets contain
which rows, and it counts the sets that it draws. The notes may be lost at any time, and no number
that was counted comes back. What is left of a client without them is what it reads with: the stored
sets, their hints, and the keys from which sets are derived. No query touches that.
-/

import PrivateRetrieval.Proofs.Hints.Exposure
import PrivateRetrieval.Proofs.Layers.Tiling

namespace PrivateRetrieval

namespace PuncturedClient

/-- The client without its notes, and without its count of the sets that it drew. -/
def withoutNotes (client : PuncturedClient) : PuncturedClient :=
  { client with owner := #[], current := { client.current with nextNumber := 0 } }

variable {client after : PuncturedClient} {row : Nat} {tape : Tape}

/-- A generator that only counts on is the same without its count. -/
theorem withoutNotes_of_freshWith {set : KeyedSet} {current : SetGenerator}
    (drawn : client.current.freshWith row = .ok (set, current)) (owner : Array (Option Nat)) :
    withoutNotes { client with owner, current } = client.withoutNotes := by
  obtain ⟨tree, cipher, -⟩ := SetGenerator.of_freshWith drawn
  simp only [withoutNotes, tree, cipher]

theorem Asks.withoutNotes {queries : Sides SetQuery} {pending : Option PendingSet}
    (asks : client.Asks row queries pending after) : after.withoutNotes = client.withoutNotes := by
  cases asks with
  | fresh drawn => exact withoutNotes_of_freshWith drawn _
  | refresh drawn => exact withoutNotes_of_freshWith drawn _

theorem withoutNotes_query (client : PuncturedClient) (row : Nat) (tape : Tape) :
    (client.query row tape).2.1.withoutNotes = client.withoutNotes := by
  rcases asked : client.query row tape with ⟨failure | ⟨queries, pending⟩, after, later⟩
  · obtain ⟨owner, rfl⟩ := exists_owner_of_refused asked
    rfl
  · exact (asks_of_query asked).withoutNotes

theorem withoutNotes_dummy (client : PuncturedClient) (tape : Tape) :
    (client.dummy tape).2.1.withoutNotes = client.withoutNotes := by
  rcases asked : client.dummy tape with ⟨failure | queries, after, later⟩
  · rw [dummy] at asked
    split at asked
    · cases asked
    · cases asked
      rfl
  · exact (asks_of_dummy asked).withoutNotes

end PuncturedClient

namespace Client

/-- A client without its notes. Only that of the punctured scheme has any. -/
def withoutNotes : Client → Client
  | .puncturedSets client => .puncturedSets client.withoutNotes
  | client => client

theorem withoutNotes_query (client : Client) (row : Nat) (tape : Tape) :
    (client.query row tape).2.1.withoutNotes = client.withoutNotes := by
  cases client with
  | puncturedSets inner => exact congrArg Client.puncturedSets (inner.withoutNotes_query row tape)
  | pointFunction shape =>
      rw [query]
      split <;> rfl
  | matrix shape =>
      rw [query]
      split <;> rfl
  | plain shape =>
      rw [query]
      split <;> rfl

theorem withoutNotes_dummy (client : Client) (tape : Tape) :
    (client.dummy tape).2.1.withoutNotes = client.withoutNotes := by
  cases client with
  | puncturedSets inner => exact congrArg Client.puncturedSets (inner.withoutNotes_dummy tape)
  | pointFunction shape => rfl
  | matrix shape =>
      rw [dummy]
      split <;> rfl
  | plain shape => rfl

end Client

/-- A layer, the notes of its client left out. -/
def Layer.withoutNotes (layer : Layer) : Layer :=
  { layer with client := layer.client.map Client.withoutNotes }

/-- A slot, the notes of the client of its layer left out. -/
def Slot.withoutNotes (slot : Slot) : Slot :=
  { slot with layer := slot.layer.map Layer.withoutNotes }

namespace Layers

/-- Layers, the notes of the clients left out. -/
def withoutNotes (layers : Layers) : Layers :=
  { layers with slots := layers.slots.map Slot.withoutNotes }

theorem withoutNotes_askLayer (row : Nat) (layer : Layer) (tape : Tape) :
    (askLayer row layer tape).2.1.withoutNotes = layer.withoutNotes := by
  rw [askLayer]
  split
  · rfl
  · rename_i client isClient
    have same : ∀ after : Client, after.withoutNotes = client.withoutNotes →
        Layer.withoutNotes { layer with client := some after } = layer.withoutNotes := by
      intro after same
      rw [Layer.withoutNotes, Layer.withoutNotes, isClient, Option.map_some, Option.map_some, same]
    dsimp only
    split
    · exact same _ (client.withoutNotes_query _ tape)
    · exact same _ (client.withoutNotes_dummy tape)

theorem map_withoutNotes_askSlots (row : Nat) (slots : List Slot) (tape : Tape) :
    (askSlots row slots tape).2.1.map Slot.withoutNotes = slots.map Slot.withoutNotes := by
  induction slots generalizing tape with
  | nil => rfl
  | cons slot rest ih =>
      rw [askSlots]
      split
      · exact congrArg (slot.withoutNotes :: ·) (ih tape)
      · rename_i layer active
        have asked := withoutNotes_askLayer row layer tape
        have same : Slot.withoutNotes { slot with layer := some (askLayer row layer tape).2.1 } =
            slot.withoutNotes := by
          rw [Slot.withoutNotes, Slot.withoutNotes, (Slot.of_active? active).1, Option.map_some,
            Option.map_some, asked]
        dsimp only
        split
        · rw [List.map_cons, List.map_cons, same]
        · rw [List.map_cons, List.map_cons, same]
          exact congrArg (slot.withoutNotes :: ·) (ih _)

/-- A query that is refused or not has the layers as they were, up to notes. -/
theorem withoutNotes_query (layers : Layers) (row : Nat) (tape : Tape) :
    (layers.query row tape).2.1.withoutNotes = layers.withoutNotes := by
  rw [query, withoutNotes, withoutNotes]
  dsimp only
  rw [map_withoutNotes_askSlots]

end Layers

end PrivateRetrieval
