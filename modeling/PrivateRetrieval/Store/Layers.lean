/-
# Layers of rows

The rows of a store are split into layers, ranges that lie next to each other, and each layer is
read by a client of its own. The slots of the layers have capacities that halve from one slot to
the next. New rows go to the smallest slot that holds them together with the rows of all smaller
slots; that layer is made anew, and the smaller slots are emptied. If no slot but the largest
has room, the capacities are computed anew and one layer holds everything. So a large layer,
whose hint is expensive, is seldom made anew.

With the punctured scheme the smallest layer, and every layer too small for sets of two
elements, is read with shares of point functions, which need no hint. The other schemes use a
single layer.

A read sends one query to every layer, of which one is meant, and the others look like it.
-/

import PrivateRetrieval.Retrieval.Client
import PrivateRetrieval.Store.Message

namespace PrivateRetrieval

/-- A range of rows. -/
structure Layer where
  /-- The first row of the range. -/
  first : Nat
  /-- How many rows the range has. -/
  count : Nat
  /-- The scheme by which the range is read. -/
  scheme : Scheme
  /-- The client of the range, once it is ready. -/
  client : Option Client

/-- The end of a layer's range. -/
def Layer.last (layer : Layer) : Nat := layer.first + layer.count

/-- Whether a row is in a layer's range. -/
def Layer.holds (layer : Layer) (row : Nat) : Bool :=
  decide (layer.first ≤ row) && decide (row < layer.last)

/-- A place for a layer. -/
structure Slot where
  /-- How many rows the layer may have. -/
  capacity : Nat
  layer : Option Layer

namespace Slot

/-- A slot without a layer. -/
def vacant (capacity : Nat) : Slot := ⟨capacity, none⟩

/-- How many rows the layer of a slot has. -/
def count (slot : Slot) : Nat :=
  match slot.layer with
  | some layer => layer.count
  | none => 0

/-- The layer of a slot, if it has rows. -/
def active? (slot : Slot) : Option Layer := slot.layer.filter fun layer => layer.count ≠ 0

/-- Whether a slot has a layer with rows and without a client. -/
def isUnready (slot : Slot) : Bool :=
  match slot.active? with
  | some layer => layer.client.isNone
  | none => false

end Slot

/-- How many rows the slots from one on get together with new rows, and which slot is the
smallest one with room for the new rows and the rows of all slots after it. Slots are counted
from the front, where the largest one is. Without room anywhere all rows are counted. -/
def findRoom : List Slot → Nat → Nat × Option Nat
  | [], incoming => (incoming, none)
  | slot :: smaller, incoming =>
      match findRoom smaller incoming with
      | (total, some index) => (total, some (index + 1))
      | (total, none) =>
          let total := total + slot.count
          (total, if total ≤ slot.capacity then some 0 else none)

/-- The halves of a capacity, until one is not above the smallest. The first argument bounds how
many there may be; a capacity cannot be halved more often than it is large. -/
def halves (smallest : Nat) : Nat → Nat → List Nat
  | 0, _ => []
  | bound + 1, capacity =>
      if smallest < capacity then capacity / 2 :: halves smallest bound (capacity / 2) else []

/-- The layers of a store's rows. -/
structure Layers where
  /-- The scheme of the layers. -/
  scheme : Scheme
  /-- A slot with no more than this capacity is not split further. -/
  smallest : Nat
  /-- Halving ends. -/
  smallest_pos : 0 < smallest
  /-- How many rows there are. -/
  total : Nat
  /-- The length of a row. -/
  rowLength : Nat
  /-- The slots, the largest one first. -/
  slots : List Slot
  /-- The slot whose hint was asked for last. -/
  pending : Option Nat

/-- What is asked of one layer. -/
structure LayerPart where
  /-- The range of the layer. -/
  first : Nat
  last : Nat
  queries : Sides Query
  /-- What to remember, if the row is in this layer. -/
  pending : Option Pending

/-- What is remembered between a query for a row and its answers. -/
structure PendingLayer where
  /-- The slot of the layer that has the row. -/
  slot : Nat
  /-- The place of that layer among the layers that were asked. -/
  place : Nat
  pending : Pending

namespace Layers

/-- The smallest capacity unless another one is chosen: ten times the square of the security
parameter 128. -/
def defaultSmallest : Nat := 10 * 128 * 128

/-- Layers without rows. -/
def empty (scheme : Scheme) (smallest : Nat) (smallest_pos : 0 < smallest) : Layers :=
  { scheme, smallest, smallest_pos, total := 0, rowLength := 0, slots := [], pending := none }

/-- Layers without rows, if the smallest capacity is positive. -/
def make (scheme : Scheme) (smallest : Nat) : Outcome Layers :=
  if positive : 0 < smallest then .ok (empty scheme smallest positive)
  else .error (.breach .smallestLayerEmpty)

/-- Drop all layers. -/
def reset (layers : Layers) : Layers := { layers with total := 0, slots := [], pending := none }

/-- The layers that have rows, the largest first. -/
def active (layers : Layers) : List Layer := layers.slots.filterMap Slot.active?

/-- The capacities of the slots. -/
def capacities (layers : Layers) : List Nat := layers.slots.map Slot.capacity

/-- The capacities for so many rows. -/
def capacitiesFor (layers : Layers) (count : Nat) : List Nat :=
  if layers.scheme = .puncturedSets then count :: halves layers.smallest count count
  else [count]

/-- The scheme of a layer of so many rows, in the smallest slot or another one. -/
def schemeFor (layers : Layers) (isSmallest : Bool) (count : Nat) : Scheme :=
  if layers.scheme = .puncturedSets ∧ (isSmallest ∨ supportsSets count = false) then .pointFunction
  else layers.scheme

/-- A layer of the last so many rows. -/
def lastRows (layers : Layers) (count : Nat) (isSmallest : Bool) : Layer :=
  { first := layers.total - count, count, scheme := layers.schemeFor isSmallest count,
    client := none }

/-- Put a layer into a slot, and empty the slots after it. -/
def putLayer (slots : List Slot) (index : Nat) (layer : Layer) : List Slot :=
  slots.mapIdx fun place slot =>
    if place < index then slot
    else if place = index then { slot with layer := some layer }
    else Slot.vacant slot.capacity

/-- Place new rows, which the total already counts. The slot of the layer that must be made anew is
returned. -/
def place (layers : Layers) (newRows : Nat) : Nat × Layers :=
  match findRoom layers.slots newRows with
  | (count, some (index + 1)) =>
      let isSmallest := decide (index + 2 = layers.slots.length)
      let slots := putLayer layers.slots (index + 1) (layers.lastRows count isSmallest)
      (index + 1, { layers with slots })
  | (count, _) =>
      let vacant := (layers.capacitiesFor count).map Slot.vacant
      let isSmallest := decide (vacant.length = 1)
      (0, { layers with slots := putLayer vacant 0 (layers.lastRows count isSmallest) })

/-- Put a client into the layer of a slot. -/
def install (slots : List Slot) (index : Nat) (client : Client) : List Slot :=
  slots.modify index fun slot =>
    { slot with layer := slot.layer.map fun layer => { layer with client := some client } }

/-- Make the layer of a slot ready, if its scheme needs no hint. Otherwise return the request for
its hint. -/
def requestHint (layers : Layers) (index : Nat) (tape : Tape) :
    Option LayerHintRequest × Layers × Tape :=
  match (layers.slots[index]?).bind Slot.active? with
  | none => (none, layers, tape)
  | some layer =>
      match Client.withoutHint layer.scheme ⟨layer.count, layers.rowLength⟩ with
      | .ok client => (none, { layers with slots := install layers.slots index client }, tape)
      | .error _ =>
          let (request, tape) := HintRequest.fresh layer.scheme tape
          (some { request, first := layer.first, count := layer.count },
            { layers with pending := some index }, tape)

/-- Place new rows of some length. If the layer that gets them needs a hint, the request for it is
returned. -/
def update (layers : Layers) (newRows rowLength : Nat) (tape : Tape) :
    Option LayerHintRequest × Layers × Tape :=
  let counted := { layers with total := layers.total + newRows, rowLength, pending := none }
  let (index, placed) := counted.place newRows
  placed.requestHint index tape

/-- Make the layers of some slots ready, up to the first one that needs a hint. -/
def requestFirst : List Nat → Layers → Tape → Option LayerHintRequest × Layers × Tape
  | [], layers, tape => (none, layers, tape)
  | index :: indices, layers, tape =>
      if (layers.slots[index]?).any Slot.isUnready then
        match layers.requestHint index tape with
        | (some request, layers, tape) => (some request, layers, tape)
        | (none, layers, tape) => requestFirst indices layers tape
      else requestFirst indices layers tape

/-- The request for the hint of a layer that is not ready, for instance because its hint could not
be fetched. -/
def missing (layers : Layers) (tape : Tape) : Option LayerHintRequest × Layers × Tape :=
  requestFirst (List.range layers.slots.length) { layers with pending := none } tape

/-- Make the layer whose hint was asked for last ready. Whatever the hint is, it is not waited for
any longer. -/
def installHint (layers : Layers) (hint : Hint) (tape : Tape) : Outcome Unit × Layers × Tape :=
  match layers.pending with
  | none => (.error .noActiveLayers, layers, tape)
  | some index =>
      let layers := { layers with pending := none }
      match (layers.slots[index]?).bind Slot.layer with
      | none => (.error .noActiveLayers, layers, tape)
      | some layer =>
          if hint.shape.rowCount ≠ layer.count then (.error .unexpectedResponse, layers, tape)
          else
            match Client.ofHint hint tape with
            | .error failure => (.error failure, layers, tape)
            | .ok (client, tape) =>
                (.ok (), { layers with slots := install layers.slots index client }, tape)

/-- Ask a layer, for a row if it has the row and for nothing in particular otherwise. -/
def askLayer (row : Nat) (layer : Layer) (tape : Tape) : Outcome LayerPart × Layer × Tape :=
  match layer.client with
  | none => (.error .noHint, layer, tape)
  | some client =>
      let part (queries : Sides Query) (pending : Option Pending) : LayerPart :=
        { first := layer.first, last := layer.last, queries, pending }
      if layer.holds row then
        let (result, client, tape) := client.query (row - layer.first) tape
        (result.map fun (queries, pending) => part queries (some pending),
          { layer with client := some client }, tape)
      else
        let (result, client, tape) := client.dummy tape
        (result.map fun queries => part queries none, { layer with client := some client }, tape)

/-- Ask the layers of slots in order. Slots without rows are passed over. The first failure ends
the round, and what the layers before it drew stays drawn. -/
def askSlots (row : Nat) : List Slot → Tape → Outcome (List (Option LayerPart)) × List Slot × Tape
  | [], tape => (.ok [], [], tape)
  | slot :: rest, tape =>
      match slot.active? with
      | none =>
          let (result, rest, tape) := askSlots row rest tape
          (result.map (none :: ·), slot :: rest, tape)
      | some layer =>
          let (result, layer, tape) := askLayer row layer tape
          let slot := { slot with layer := some layer }
          match result with
          | .error failure => (.error failure, slot :: rest, tape)
          | .ok part =>
              let (result, rest, tape) := askSlots row rest tape
              (result.map (some part :: ·), slot :: rest, tape)

/-- The boundaries between ranges: where each begins, and where the last one ends. -/
def boundaries (parts : List LayerPart) : List Nat :=
  parts.map LayerPart.first ++ (parts.getLast?.map LayerPart.last).toList

/-- The query for one server, from its queries to the layers. -/
def layeredQuery (parts : List LayerPart) (side : Sides Query → Query) : LayeredQuery :=
  { queries := parts.map fun part => side part.queries, boundaries := boundaries parts }

/-- What to remember of a round in which some slots were asked: the slot that has the row. -/
def pendingOf (parts : List (Option LayerPart)) : Option PendingLayer := do
  let isMeant (part : LayerPart) : Bool := part.pending.isSome
  let slot ← parts.findIdx? (·.any isMeant)
  let place ← (parts.filterMap id).findIdx? isMeant
  let part ← (parts.filterMap id)[place]?
  return { slot, place, pending := ← part.pending }

/-- The queries for a row, and what to remember until they are answered. -/
def query (layers : Layers) (row : Nat) (tape : Tape) :
    Outcome (Sides LayeredQuery × PendingLayer) × Layers × Tape :=
  let (result, slots, tape) := askSlots row layers.slots tape
  let result := do
    let parts ← result
    let asked := parts.filterMap id
    if asked.isEmpty then throw .noActiveLayers
    match pendingOf parts with
    | none => throw (.indexOutOfBounds row layers.total)
    | some pending =>
        return (⟨layeredQuery asked Sides.left, layeredQuery asked Sides.right⟩, pending)
  (result, { layers with slots }, tape)

/-- The row that was asked for, from the answers of the two servers. A failure leaves the layers as
they were. -/
def reconstruct (layers : Layers) (pending : PendingLayer) (answers : Sides (List Answer)) :
    Outcome (Row × Layers) := do
  match answers.left[pending.place]?, answers.right[pending.place]? with
  | some left, some right =>
      match ((layers.slots[pending.slot]?).bind Slot.layer).bind Layer.client with
      | none => throw .noHint
      | some client =>
          let (row, client) ← client.reconstruct pending.pending ⟨left, right⟩
          return (row, { layers with slots := install layers.slots pending.slot client })
  | _, _ => throw .unexpectedResponse

/-- What the clients of the layers keep. A key is in one layer, so the largest number of bits
counts. -/
def footprint (layers : Layers) : Client.Footprint :=
  (layers.active.filterMap Layer.client).foldl
    (fun sum client =>
      ⟨max sum.bitsPerKey client.footprint.bitsPerKey, sum.bytes + client.footprint.bytes⟩)
    ⟨0, 0⟩

end Layers

end PrivateRetrieval
