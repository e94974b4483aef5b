/-
# The geometry of layers

Whatever a client does with its layers, they lie next to each other and have all rows that were
placed since the last reset. No layer is larger than its slot, the capacities of the slots halve
from one slot to the next, and the largest slot is full, so the capacities follow from the number of
rows at the time when all layers were made anew. Since then the rows have at most doubled.
-/

import PrivateRetrieval.Proofs.Layers.Arrangement

namespace PrivateRetrieval

namespace Layers

/-! ## Operations -/

/-- What a client does with its layers. -/
inductive Operation
  /-- Place new rows. -/
  | update (newRows rowLength : Nat) (tape : Tape)
  | missing (tape : Tape)
  | installHint (hint : Hint) (tape : Tape)
  | query (row : Nat) (tape : Tape)
  | reconstruct (pending : PendingLayer) (answers : Sides (List Answer))
  | reset

namespace Operation

/-- The layers after an operation, whether or not it succeeds. -/
def perform (layers : Layers) : Operation → Layers
  | update newRows rowLength tape => (layers.update newRows rowLength tape).2.1
  | missing tape => (layers.missing tape).2.1
  | installHint hint tape => (layers.installHint hint tape).2.1
  | query row tape => (layers.query row tape).2.1
  | reconstruct pending answers =>
      match layers.reconstruct pending answers with
      | .ok (_, after) => after
      | .error _ => layers
  | reset => layers.reset

/-- How many rows there are after an operation. -/
def rowsAfter (rows : Nat) : Operation → Nat
  | update newRows _ _ => rows + newRows
  | missing _ | installHint _ _ | query _ _ | reconstruct _ _ => rows
  | reset => 0

end Operation

/-- The layers after operations in order. -/
def afterAll (layers : Layers) (operations : List Operation) : Layers :=
  operations.foldl Operation.perform layers

/-- How many rows were placed since the last reset. -/
def rowsSinceReset (operations : List Operation) : Nat :=
  operations.foldl Operation.rowsAfter 0

/-- Layers of a scheme that have so many rows, and their slots arranged for them. -/
structure Holds (layers : Layers) (scheme : Scheme) (smallest rows : Nat) : Prop
    extends layers.Arranged rows where
  isScheme : layers.scheme = scheme
  isSmallest : layers.smallest = smallest
  total : layers.total = rows

namespace Holds

variable {layers : Layers} {scheme : Scheme} {smallest rows : Nat}

theorem empty (scheme : Scheme) {smallest : Nat} (smallest_pos : 0 < smallest) :
    (Layers.empty scheme smallest smallest_pos).Holds scheme smallest 0 where
  toArranged := arranged_nil rfl
  isScheme := rfl
  isSmallest := rfl
  total := rfl

/-- Clients do not matter. -/
theorem of_outline (holds : layers.Holds scheme smallest rows) {after : Layers}
    (same : after.outline = layers.outline) : after.Holds scheme smallest rows := by
  refine ⟨holds.toArranged.of_outline same, ?_, ?_, ?_⟩
  · show after.outline.scheme = scheme
    rw [same]
    exact holds.isScheme
  · show after.outline.smallest = smallest
    rw [same]
    exact holds.isSmallest
  · show after.outline.total = rows
    rw [same]
    exact holds.total

theorem update (holds : layers.Holds scheme smallest rows) (newRows rowLength : Nat)
    (tape : Tape) :
    (layers.update newRows rowLength tape).2.1.Holds scheme smallest (rows + newRows) := by
  have total : (layers.counting newRows rowLength).total = rows + newRows :=
    congrArg (· + newRows) holds.total
  have arranged : (layers.counting newRows rowLength).Arranged rows :=
    ⟨holds.spans, holds.capacities, holds.full, holds.placed⟩
  have arrangedAfter := arranged.place total
  obtain ⟨index, slots, placed⟩ := (layers.counting newRows rowLength).place_eq newRows
  rw [placed] at arrangedAfter
  have holdsAfter :
      Holds { layers.counting newRows rowLength with slots } scheme smallest (rows + newRows) :=
    ⟨arrangedAfter, holds.isScheme, holds.isSmallest, total⟩
  apply holdsAfter.of_outline
  rw [update_eq, placed]
  exact outline_requestHint _ _ _

/-- An operation places its rows, if it has any, and nothing else. -/
theorem perform (holds : layers.Holds scheme smallest rows) (operation : Operation) :
    (operation.perform layers).Holds scheme smallest (operation.rowsAfter rows) := by
  cases operation with
  | update newRows rowLength tape => exact holds.update newRows rowLength tape
  | missing tape => exact holds.of_outline (outline_requestFirst _ _ tape)
  | installHint hint tape => exact holds.of_outline (layers.outline_installHint hint tape)
  | query row tape => exact holds.of_outline (layers.outline_query row tape)
  | reconstruct pending answers =>
      rw [Operation.perform]
      split
      · rename_i reconstructed
        exact holds.of_outline (outline_reconstruct reconstructed)
      · exact holds
  | reset => exact ⟨arranged_nil rfl, holds.isScheme, holds.isSmallest, rfl⟩

theorem afterAll (holds : layers.Holds scheme smallest rows) (operations : List Operation) :
    (layers.afterAll operations).Holds scheme smallest
      (operations.foldl Operation.rowsAfter rows) := by
  induction operations generalizing layers rows with
  | nil => exact holds
  | cons operation rest ih => exact ih (holds.perform operation)

end Holds

/-- After any operations, there are as many rows as were placed since the last reset, and the layers
lie next to each other and have all of them, with or without the layers that have no rows. A layer
has room in its slot, and it is read with punctured sets only if it is not in the smallest slot and
is large enough for sets of two elements. If there are slots, the largest one is full and all rows
are at most twice its capacity. With punctured sets, the capacities are its halves, each less than
the one before, up to the first one not above the smallest; with another scheme it is the only
slot. -/
theorem geometry_after_operations (scheme : Scheme) {smallest : Nat} (smallest_pos : 0 < smallest)
    (operations : List Operation) :
    let layers := (empty scheme smallest smallest_pos).afterAll operations
    layers.total = rowsSinceReset operations ∧
      Spans 0 (layers.slots.filterMap Slot.layer) layers.total ∧
      Spans 0 layers.active layers.total ∧
      (∀ (index : Nat) (slot : Slot) (layer : Layer), layers.slots[index]? = some slot →
        slot.layer = some layer → layer.count ≤ slot.capacity ∧
          (layer.scheme = .puncturedSets →
            index + 1 < layers.slots.length ∧ 2 ≤ setSizeFor layer.count)) ∧
      ∀ largest : Slot, layers.slots[0]? = some largest →
        (∃ layer : Layer, largest.layer = some layer ∧ layer.count = largest.capacity) ∧
        layers.total ≤ 2 * largest.capacity ∧
        (scheme = .puncturedSets → layers.capacities.Pairwise (· > ·) ∧
          ∃ halvings : Nat, layers.capacities =
              (List.range (halvings + 1)).map (largest.capacity / 2 ^ ·) ∧
            largest.capacity / 2 ^ halvings ≤ smallest ∧
            ∀ count : Nat, count < halvings → smallest < largest.capacity / 2 ^ count) ∧
        (scheme ≠ .puncturedSets → layers.capacities = [largest.capacity]) := by
  intro layers
  have holds : layers.Holds scheme smallest (rowsSinceReset operations) :=
    (Holds.empty scheme smallest_pos).afterAll operations
  have spans := holds.spans
  rw [← holds.total] at spans
  refine ⟨holds.total, spans, ?_, ?_, ?_⟩
  · rw [active_eq_filter]
    exact spans.filter
  · intro index slot layer held isLayer
    obtain ⟨room, isScheme⟩ := holds.placed index slot layer held isLayer
    refine ⟨room, fun punctured => ?_⟩
    obtain ⟨inside, -⟩ := List.getElem?_eq_some_iff.mp held
    obtain ⟨notSmallest, supported⟩ := of_schemeFor (isScheme.symm.trans punctured)
    exact ⟨Nat.lt_of_le_of_ne inside (of_decide_eq_false notSmallest), of_decide_eq_true supported⟩
  · intro largest held
    have capacities := holds.capacities largest held
    have rows := holds.rows_le held
    rw [← holds.total] at rows
    refine ⟨holds.full largest held, rows, ?_, ?_⟩
    · intro punctured
      rw [capacitiesFor, if_pos (holds.isScheme.trans punctured), holds.isSmallest] at capacities
      obtain ⟨halvings, isHalves, below, above⟩ :=
        @halves_eq_map smallest largest.capacity largest.capacity (Nat.le_refl _)
      rw [isHalves] at capacities
      rw [capacities]
      exact ⟨pairwise_halvings above, halvings, rfl, below, above⟩
    · intro other
      rwa [capacitiesFor, if_neg (holds.isScheme.trans_ne other)] at capacities

/-- Ten rows fill the largest slot, and fewer ones go to the smaller slots. -/
theorem geometry_after_small_updates :
    let operations : List Operation :=
      [.update 10 1 ⟨fun _ => 0, 0⟩, .update 3 1 ⟨fun _ => 0, 0⟩, .missing ⟨fun _ => 0, 0⟩,
        .update 1 1 ⟨fun _ => 0, 0⟩]
    ∃ layers, layers = (empty .puncturedSets 3 three_pos).afterAll operations ∧
      layers.slots.map (fun slot => (slot.count, slot.capacity)) = [(10, 10), (3, 5), (1, 2)] ∧
      layers.total = 14 ∧ Spans 0 layers.active 14 ∧ layers.total ≤ 2 * 10 := by
  intro operations
  have geometry := geometry_after_operations .puncturedSets three_pos operations
  have rows : rowsSinceReset operations = 14 := rfl
  have slots : ((empty .puncturedSets 3 three_pos).afterAll operations).slots.map
      (fun slot => (slot.count, slot.capacity)) = [(10, 10), (3, 5), (1, 2)] := by
    decide +kernel
  generalize (empty .puncturedSets 3 three_pos).afterAll operations = layers at geometry slots
  obtain ⟨total, -, spans, -, bounds⟩ := geometry
  have first : layers.slots[0]?.map (fun slot => (slot.count, slot.capacity)) = some (10, 10) := by
    rw [← List.getElem?_map, slots, List.getElem?_cons_zero]
  obtain ⟨largest, held, isLargest⟩ := Option.map_eq_some_iff.mp first
  have capacity : largest.capacity = 10 := congrArg Prod.snd isLargest
  obtain ⟨-, inside, -⟩ := bounds largest held
  rw [rows] at total
  rw [total] at spans
  rw [capacity] at inside
  exact ⟨layers, rfl, slots, total, spans, inside⟩

end Layers

end PrivateRetrieval
