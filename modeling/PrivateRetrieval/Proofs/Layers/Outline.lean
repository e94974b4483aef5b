/-
# Outlines of layers

Apart from the placement of new rows and the reset, nothing that a client does with its layers moves
them. It makes clients, lets them draw, and remembers which hint it waits for. So the layers have
the same outline before and after: all that is left of them without the clients.
-/

import PrivateRetrieval.Proofs.Layers.Tiling

namespace PrivateRetrieval

/-- A layer, its client left out. -/
def Layer.outline (layer : Layer) : Layer := { layer with client := none }

/-- A slot, the client of its layer left out. -/
def Slot.outline (slot : Slot) : Slot := { slot with layer := slot.layer.map Layer.outline }

/-- Slots of one outline have the same capacity and the same layer, up to its client. -/
theorem Slot.of_outline {slot other : Slot} (same : slot.outline = other.outline) :
    slot.capacity = other.capacity ∧ ∀ layer, slot.layer = some layer →
      ∃ otherLayer, other.layer = some otherLayer ∧ layer.count = otherLayer.count ∧
        layer.scheme = otherLayer.scheme := by
  rw [outline, outline, Slot.mk.injEq] at same
  obtain ⟨capacity, layers⟩ := same
  refine ⟨capacity, fun layer isLayer => ?_⟩
  rw [isLayer, Option.map_some] at layers
  obtain ⟨otherLayer, isOther, sameLayer⟩ := Option.map_eq_some_iff.mp layers.symm
  rw [Layer.outline, Layer.outline, Layer.mk.injEq] at sameLayer
  obtain ⟨-, count, scheme, -⟩ := sameLayer
  exact ⟨otherLayer, isOther, count.symm, scheme.symm⟩

namespace Layers

/-- Layers, the clients and what is waited for left out. -/
def outline (layers : Layers) : Layers :=
  { layers with rowLength := 0, slots := layers.slots.map Slot.outline, pending := none }

/-- Slots of one outline stand at the same places. -/
theorem getElem?_of_outline {slots others : List Slot}
    (same : slots.map Slot.outline = others.map Slot.outline) {index : Nat} {slot : Slot}
    (held : slots[index]? = some slot) :
    ∃ other, others[index]? = some other ∧ slot.outline = other.outline := by
  have equal := congrArg (·[index]?) same
  simp only [List.getElem?_map, held, Option.map_some] at equal
  obtain ⟨other, isOther, sameOutline⟩ := Option.map_eq_some_iff.mp equal.symm
  exact ⟨other, isOther, sameOutline.symm⟩

theorem map_capacity_of_outline {slots others : List Slot}
    (same : slots.map Slot.outline = others.map Slot.outline) :
    slots.map Slot.capacity = others.map Slot.capacity := by
  have equal := congrArg (List.map Slot.capacity) same
  rwa [List.map_map, List.map_map] at equal

theorem filterMap_map_outline (slots : List Slot) :
    (slots.map Slot.outline).filterMap Slot.layer =
      (slots.filterMap Slot.layer).map Layer.outline := by
  rw [List.filterMap_map, List.map_filterMap]
  rfl

theorem map_outline_install (slots : List Slot) (index : Nat) (client : Client) :
    (install slots index client).map Slot.outline = slots.map Slot.outline := by
  induction slots generalizing index with
  | nil => rw [install, List.modify_nil]
  | cons slot rest ih =>
      cases index with
      | zero =>
          rw [install, List.modify_zero_cons, List.map_cons, List.map_cons]
          congr 1
          rw [Slot.outline, Slot.outline, Option.map_map]
          rfl
      | succ index =>
          have tail := ih index
          rw [install] at tail ⊢
          rw [List.modify_succ_cons, List.map_cons, List.map_cons, tail]

/-- A client that is put into a slot leaves the outline. -/
theorem outline_install (layers : Layers) (index : Nat) (client : Client) :
    outline { layers with slots := install layers.slots index client } = layers.outline := by
  rw [outline, outline, map_outline_install]

theorem outline_requestHint (layers : Layers) (index : Nat) (tape : Tape) :
    (layers.requestHint index tape).2.1.outline = layers.outline := by
  rw [requestHint]
  split
  · rfl
  · split
    · exact outline_install _ _ _
    · rfl

theorem outline_requestFirst (indices : List Nat) (layers : Layers) (tape : Tape) :
    (requestFirst indices layers tape).2.1.outline = layers.outline := by
  induction indices generalizing layers tape with
  | nil => rfl
  | cons index rest ih =>
      have requested := layers.outline_requestHint index tape
      rw [requestFirst]
      split
      · split
        · rename_i isRequest
          rw [isRequest] at requested
          exact requested
        · rename_i isRequest
          rw [isRequest] at requested
          rw [ih, requested]
      · exact ih layers tape

theorem outline_installHint (layers : Layers) (hint : Hint) (tape : Tape) :
    (layers.installHint hint tape).2.1.outline = layers.outline := by
  rw [installHint]
  split
  · rfl
  · dsimp only
    split
    · rfl
    · split
      · rfl
      · split
        · rfl
        · exact outline_install _ _ _

theorem outline_askLayer (row : Nat) (layer : Layer) (tape : Tape) :
    (askLayer row layer tape).2.1.outline = layer.outline := by
  rw [askLayer]
  split
  · rfl
  · dsimp only
    split <;> rfl

theorem map_outline_askSlots (row : Nat) (slots : List Slot) (tape : Tape) :
    (askSlots row slots tape).2.1.map Slot.outline = slots.map Slot.outline := by
  induction slots generalizing tape with
  | nil => rfl
  | cons slot rest ih =>
      rw [askSlots]
      split
      · exact congrArg (slot.outline :: ·) (ih tape)
      · rename_i layer active
        have asked := outline_askLayer row layer tape
        have same : Slot.outline { slot with layer := some (askLayer row layer tape).2.1 } =
            slot.outline := by
          rw [Slot.outline, Slot.outline, (Slot.of_active? active).1, Option.map_some,
            Option.map_some, asked]
        dsimp only
        split
        · rw [List.map_cons, List.map_cons, same]
        · rw [List.map_cons, List.map_cons, same]
          exact congrArg (slot.outline :: ·) (ih _)

theorem outline_query (layers : Layers) (row : Nat) (tape : Tape) :
    (layers.query row tape).2.1.outline = layers.outline := by
  rw [query, outline, outline]
  dsimp only
  rw [map_outline_askSlots]

/-- A query that succeeds made a round, and remembers the part of it that asked for the row. -/
theorem of_query {layers after : Layers} {row : Nat} {tape later : Tape}
    {queries : Sides LayeredQuery} {pending : PendingLayer}
    (made : layers.query row tape = (.ok (queries, pending), after, later)) :
    ∃ parts slots, askSlots row layers.slots tape = (.ok parts, slots, later) ∧
      after = { layers with slots } ∧ pendingOf parts = some pending ∧
      queries = ⟨layeredQuery (parts.filterMap id) Sides.left,
        layeredQuery (parts.filterMap id) Sides.right⟩ := by
  rw [query] at made
  rcases asked : askSlots row layers.slots tape with ⟨failure | parts, slots, last⟩
  · rw [asked] at made
    cases made
  · simp only [asked, bind, Except.bind] at made
    split at made
    · cases made
    split at made
    · cases made
    · rename_i isPending
      cases made
      exact ⟨parts, slots, rfl, rfl, isPending, rfl⟩

/-- Answers are given to one client, and only its layer changes. -/
theorem eq_of_reconstruct {layers after : Layers} {pending : PendingLayer}
    {answers : Sides (List Answer)} {given : Row}
    (reconstructed : layers.reconstruct pending answers = .ok (given, after)) :
    ∃ client, after = { layers with slots := install layers.slots pending.slot client } := by
  rw [reconstruct] at reconstructed
  split at reconstructed
  · split at reconstructed
    · cases reconstructed
    · rename_i client _
      cases result : client.reconstruct pending.pending _ with
      | error failure =>
          rw [result] at reconstructed
          cases reconstructed
      | ok found =>
          rw [result] at reconstructed
          cases reconstructed
          exact ⟨_, rfl⟩
  · cases reconstructed

theorem outline_reconstruct {layers after : Layers} {pending : PendingLayer}
    {answers : Sides (List Answer)} {row : Row}
    (reconstructed : layers.reconstruct pending answers = .ok (row, after)) :
    after.outline = layers.outline := by
  obtain ⟨client, rfl⟩ := eq_of_reconstruct reconstructed
  exact outline_install layers pending.slot client

end Layers

end PrivateRetrieval
