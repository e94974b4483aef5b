/-
# What an update changes

An update makes one layer anew. It is in the smallest slot that has room for the new rows and the
rows of all layers from it on, as long as that slot is not the largest; otherwise it has all rows,
in the largest of slots that are made for them. The search for that slot goes from the smallest one
up and passes over slots of any occupancy, those without a layer and those whose layer has no rows.
Layers in larger slots stay as they are, with the clients that they have.

The layer that was made anew is ready, unless it is read with punctured sets: then its hint is asked
for, and nothing else is.
-/

import PrivateRetrieval.Proofs.Layers.Geometry

namespace PrivateRetrieval

namespace Layers

/-! ## Room -/

/-- A slot has room for new rows and the rows of its layer and of all layers after it. -/
def HasRoom (slots : List Slot) (newRows index : Nat) : Prop :=
  ∃ slot, slots[index]? = some slot ∧
    newRows + ((slots.drop index).map Slot.count).sum ≤ slot.capacity

theorem hasRoom_iff {slots : List Slot} {newRows index : Nat} :
    HasRoom slots newRows index ↔ ∃ capacity, (slots.map Slot.capacity)[index]? = some capacity ∧
      newRows + ((slots.map Slot.count).drop index).sum ≤ capacity := by
  simp [HasRoom, List.map_drop]

theorem hasRoom_cons_zero {slot : Slot} {slots : List Slot} {newRows : Nat} :
    HasRoom (slot :: slots) newRows 0 ↔
      newRows + (slot.count + (slots.map Slot.count).sum) ≤ slot.capacity := by
  simp [HasRoom]

theorem hasRoom_cons_succ {slot : Slot} {slots : List Slot} {newRows index : Nat} :
    HasRoom (slot :: slots) newRows (index + 1) ↔ HasRoom slots newRows index := by
  simp [HasRoom]

/-- The slot that is found is the last one with room. If none is found, there is none. -/
theorem findRoom_cases (slots : List Slot) (newRows : Nat) :
    (∃ index, (findRoom slots newRows).2 = some index ∧
        IsGreatest {index | HasRoom slots newRows index} index) ∨
      (findRoom slots newRows).2 = none ∧ ∀ index, ¬ HasRoom slots newRows index := by
  induction slots with
  | nil => exact Or.inr ⟨rfl, fun index room => by simp [HasRoom] at room⟩
  | cons slot smaller ih =>
      have counted := (findRoom_spec smaller newRows).1
      rw [findRoom]
      rcases below : findRoom smaller newRows with ⟨total, _ | index⟩
      · -- No smaller slot has room, so this slot decides.
        rw [below] at ih counted
        have full : ∀ index, ¬ HasRoom smaller newRows index := by
          rcases ih with ⟨index, isIndex, -⟩ | ⟨-, full⟩
          · cases isIndex
          · exact full
        have counted : total = newRows + (smaller.map Slot.count).sum := counted
        have fits : HasRoom (slot :: smaller) newRows 0 ↔ total + slot.count ≤ slot.capacity := by
          rw [hasRoom_cons_zero]
          omega
        dsimp only
        by_cases room : total + slot.count ≤ slot.capacity
        · refine Or.inl ⟨0, if_pos room, fits.mpr room, ?_⟩
          rintro (_ | other) hasRoom
          · exact Nat.le_refl 0
          · exact absurd (hasRoom_cons_succ.mp hasRoom) (full other)
        · refine Or.inr ⟨if_neg room, ?_⟩
          rintro (_ | other) hasRoom
          · exact room (fits.mp hasRoom)
          · exact full other (hasRoom_cons_succ.mp hasRoom)
      · rw [below] at ih
        rcases ih with ⟨other, isOther, room, last⟩ | ⟨absent, -⟩
        · cases isOther
          refine Or.inl ⟨index + 1, rfl, hasRoom_cons_succ.mpr room, ?_⟩
          rintro (_ | other) hasRoom
          · exact Nat.zero_le _
          · exact Nat.succ_le_succ (last (hasRoom_cons_succ.mp hasRoom))
        · cases absent

/-- The slots for so many rows, without layers. -/
def vacantFor (layers : Layers) (count : Nat) : List Slot :=
  (layers.capacitiesFor count).map Slot.vacant

theorem getElem?_vacantFor_zero (layers : Layers) (count : Nat) :
    (layers.vacantFor count)[0]? = some (Slot.vacant count) := by
  obtain ⟨rest, isCapacities⟩ := layers.capacitiesFor_eq_cons count
  rw [vacantFor, isCapacities, List.map_cons, List.getElem?_cons_zero]

/-- New rows go to the last slot with room that is not the largest, together with the rows from it
on. Without such a slot all layers are made anew. -/
theorem place_cases (layers : Layers) (newRows : Nat) :
    (∃ index isSmallest,
        IsGreatest {index | 1 ≤ index ∧ HasRoom layers.slots newRows index} index ∧
        layers.place newRows = (index,
          { layers with
            slots := putLayer layers.slots index
              (layers.lastRows (newRows + ((layers.slots.drop index).map Slot.count).sum)
                isSmallest) })) ∨
      (∀ index, 1 ≤ index → ¬ HasRoom layers.slots newRows index) ∧
        ∃ isSmallest, layers.place newRows = (0,
          { layers with
            slots := putLayer (layers.vacantFor (newRows + (layers.slots.map Slot.count).sum)) 0
              (layers.lastRows (newRows + (layers.slots.map Slot.count).sum) isSmallest) }) := by
  have counted := (findRoom_spec layers.slots newRows).1
  have found := findRoom_cases layers.slots newRows
  rw [place]
  rcases search : findRoom layers.slots newRows with ⟨count, _ | _ | index⟩
  · rw [search] at counted found
    obtain rfl : count = newRows + (layers.slots.map Slot.count).sum := counted
    rcases found with ⟨index, isIndex, -⟩ | ⟨-, full⟩
    · cases isIndex
    · exact Or.inr ⟨fun index _ => full index, _, rfl⟩
  · rw [search] at counted found
    obtain rfl : count = newRows + (layers.slots.map Slot.count).sum := counted
    rcases found with ⟨index, isIndex, -, last⟩ | ⟨absent, -⟩
    · cases isIndex
      exact Or.inr ⟨fun index positive room => (last room).not_gt positive, _, rfl⟩
    · cases absent
  · rw [search] at counted found
    obtain rfl : count =
        newRows + ((layers.slots.drop (index + 1)).map Slot.count).sum := counted
    rcases found with ⟨other, isOther, room, last⟩ | ⟨absent, -⟩
    · cases isOther
      exact Or.inl ⟨index + 1, _, ⟨⟨Nat.succ_pos index, room⟩, fun _ other => last other.2⟩, rfl⟩
    · cases absent

/-! ## Layers that are made anew -/

/-- What becomes of a layer that was made anew. Its hint is asked for if and only if it has rows and
is read with punctured sets. If it has rows and needs no hint, it has a client of its shape. -/
structure Prepares (request : Option LayerHintRequest) (rowLength : Nat) (layer : Layer) :
    Prop where
  asks : request.isSome = true ↔ layer.scheme = .puncturedSets ∧ 0 < layer.count
  names : ∀ asked, request = some asked → ∃ drawing,
    asked = ⟨(HintRequest.fresh layer.scheme drawing).1, layer.first, layer.count⟩
  ready : layer.scheme ≠ .puncturedSets → 0 < layer.count → ∃ client,
    layer.client = some client ∧
      Client.withoutHint layer.scheme ⟨layer.count, rowLength⟩ = .ok client

theorem exists_withoutHint {scheme : Scheme} (other : scheme ≠ .puncturedSets) (shape : Shape) :
    ∃ client, Client.withoutHint scheme shape = .ok client := by
  cases scheme with
  | puncturedSets => exact absurd rfl other
  | pointFunction => exact ⟨_, rfl⟩
  | matrix => exact ⟨_, rfl⟩
  | plain => exact ⟨_, rfl⟩

/-- Asking for the hint of a layer changes its client at most. -/
theorem requestHint_prepares {layers : Layers} {index : Nat} {slot : Slot} {layer : Layer}
    (held : layers.slots[index]? = some slot) (isLayer : slot.layer = some layer) (tape : Tape) :
    ∃ client,
      (layers.requestHint index tape).2.1.slots[index]? =
          some { slot with layer := some { layer with client } } ∧
        Prepares (layers.requestHint index tape).1 layers.rowLength { layer with client } ∧
        ∀ place, place ≠ index →
          (layers.requestHint index tape).2.1.slots[place]? = layers.slots[place]? := by
  obtain ⟨capacity, _⟩ := slot
  cases isLayer
  rcases Nat.eq_zero_or_pos layer.count with noRows | filled
  · have inactive : Slot.active? ⟨capacity, some layer⟩ = none := by
      simp [Slot.active?, noRows]
    rw [requestHint, held, Option.bind_some, inactive]
    exact ⟨layer.client, held, ⟨by simp [noRows], by simp, by simp [noRows]⟩, fun _ _ => rfl⟩
  · have active : Slot.active? ⟨capacity, some layer⟩ = some layer :=
      Slot.active?_of_layer capacity filled
    rw [requestHint, held, Option.bind_some, active]
    dsimp only
    by_cases punctured : layer.scheme = .puncturedSets
    · obtain ⟨failure, refused⟩ :
          ∃ failure, Client.withoutHint layer.scheme ⟨layer.count, layers.rowLength⟩ =
            .error failure := by
        rw [punctured]
        exact ⟨_, rfl⟩
      rw [refused]
      refine ⟨layer.client, held, ⟨?_, ?_, fun other => absurd punctured other⟩, fun _ _ => rfl⟩
      · exact iff_of_true rfl ⟨punctured, filled⟩
      · intro asked isAsked
        cases isAsked
        exact ⟨tape, rfl⟩
    · obtain ⟨client, made⟩ := exists_withoutHint punctured ⟨layer.count, layers.rowLength⟩
      rw [made]
      refine ⟨some client, ?_, ⟨?_, ?_, fun _ _ => ⟨client, rfl, made⟩⟩, fun place other => ?_⟩
      · exact getElem?_install_self held client
      · exact iff_of_false Bool.false_ne_true fun asked => punctured asked.1
      · intro asked isAsked
        cases isAsked
      · exact getElem?_install_of_ne other client

/-- One layer was made anew. Its slot holds it with the rows of a range, and the slots after it are
without layers. -/
structure MadeAnew (layers : Layers) (request : Option LayerHintRequest)
    (rowLength index first count : Nat) : Prop where
  made : ∃ slot layer, layers.slots[index]? = some slot ∧ slot.layer = some layer ∧
    layer.first = first ∧ layer.count = count ∧ Prepares request rowLength layer
  emptied : ∀ place slot, index < place → layers.slots[place]? = some slot → slot.layer = none

/-- A layer that is put into a slot and whose hint is asked for was made anew. Larger layers stay as
they are. -/
theorem madeAnew_putLayer (layers : Layers) {slots : List Slot} {index : Nat} {slot : Slot}
    {layer : Layer} (held : slots[index]? = some slot) (tape : Tape) :
    let placed : Layers := { layers with slots := putLayer slots index layer }
    (placed.requestHint index tape).2.1.MadeAnew (placed.requestHint index tape).1
        layers.rowLength index layer.first layer.count ∧
      (placed.requestHint index tape).2.1.capacities = slots.map Slot.capacity ∧
      ∀ place < index, (placed.requestHint index tape).2.1.slots[place]? = slots[place]? := by
  intro placed
  have heldPlaced : placed.slots[index]? = some { slot with layer := some layer } := by
    show (putLayer slots index layer)[index]? = _
    rw [getElem?_putLayer, held, Option.map_some, if_neg (Nat.lt_irrefl _), if_pos rfl]
  obtain ⟨client, isMade, prepares, others⟩ := requestHint_prepares heldPlaced rfl tape
  have sameOutline := placed.outline_requestHint index tape
  generalize placed.requestHint index tape = requested at *
  obtain ⟨request, after, later⟩ := requested
  refine ⟨⟨⟨_, _, isMade, rfl, rfl, rfl, prepares⟩, ?_⟩, ?_, ?_⟩
  · intro place other beyond isOther
    have isVacant : (putLayer slots index layer)[place]? = some other :=
      (others place beyond.ne').symm.trans isOther
    rw [getElem?_putLayer] at isVacant
    obtain ⟨old, -, rfl⟩ := Option.map_eq_some_iff.mp isVacant
    rw [if_neg beyond.not_gt, if_neg beyond.ne']
    rfl
  · calc after.capacities = placed.capacities :=
          map_capacity_of_outline (congrArg Layers.slots sameOutline)
      _ = slots.map Slot.capacity := map_capacity_putLayer slots index layer
  · intro place before
    calc after.slots[place]? = (putLayer slots index layer)[place]? := others place before.ne
      _ = slots[place]? := getElem?_putLayer_of_lt before

/-- An update makes the layer anew in which new rows are placed. -/
theorem update_madeAnew {layers : Layers} {newRows rowLength index : Nat} {slots : List Slot}
    {slot : Slot} {layer : Layer}
    (placed : (layers.counting newRows rowLength).place newRows =
      (index, { layers.counting newRows rowLength with slots := putLayer slots index layer }))
    (held : slots[index]? = some slot) (tape : Tape) :
    (layers.update newRows rowLength tape).2.1.MadeAnew (layers.update newRows rowLength tape).1
        rowLength index layer.first layer.count ∧
      (layers.update newRows rowLength tape).2.1.capacities = slots.map Slot.capacity ∧
      ∀ place < index,
        (layers.update newRows rowLength tape).2.1.slots[place]? = slots[place]? := by
  rw [update_eq, placed]
  exact (layers.counting newRows rowLength).madeAnew_putLayer held tape

/-- An update makes a layer anew, and layers in larger slots stay as they are. -/
theorem exists_madeAnew (layers : Layers) (newRows rowLength : Nat) (tape : Tape) :
    ∃ index first count,
      (layers.update newRows rowLength tape).2.1.MadeAnew (layers.update newRows rowLength tape).1
        rowLength index first count ∧
      ∀ place < index,
        (layers.update newRows rowLength tape).2.1.slots[place]? = layers.slots[place]? := by
  rcases (layers.counting newRows rowLength).place_cases newRows with
    ⟨index, isSmallest, greatest, placed⟩ | ⟨-, isSmallest, placed⟩
  · obtain ⟨slot, held, -⟩ := greatest.1.2
    obtain ⟨anew, -, larger⟩ := update_madeAnew placed held tape
    exact ⟨index, _, _, anew, larger⟩
  · obtain ⟨anew, -, -⟩ := update_madeAnew placed (getElem?_vacantFor_zero _ _) tape
    exact ⟨0, _, _, anew, fun place before => absurd before (Nat.not_lt_zero place)⟩

/-- After any operations, an update makes one layer anew. If a slot but the largest has room for the
new rows and the rows of all layers from it on, the last such slot gets them as one layer. Layers in
larger slots stay as they are, with their clients, and so do the capacities. Otherwise the largest
of new slots for all rows gets a layer of all rows. Smaller layers are gone either way, and the hint
of the new layer is asked for if and only if it has rows and is read with punctured sets. -/
theorem update_makes_one_layer_anew (scheme : Scheme) {smallest : Nat}
    (smallest_pos : 0 < smallest) (operations : List Operation) (newRows rowLength : Nat)
    (tape : Tape) :
    let layers := (empty scheme smallest smallest_pos).afterAll operations
    let request := (layers.update newRows rowLength tape).1
    let after := (layers.update newRows rowLength tape).2.1
    after.total = layers.total + newRows ∧
      ((∃ index, IsGreatest {index | 1 ≤ index ∧ HasRoom layers.slots newRows index} index ∧
          after.MadeAnew request rowLength index ((layers.slots.take index).map Slot.count).sum
            (newRows + ((layers.slots.drop index).map Slot.count).sum) ∧
          after.capacities = layers.capacities ∧
          ∀ place < index, after.slots[place]? = layers.slots[place]?) ∨
        (∀ index, 1 ≤ index → ¬ HasRoom layers.slots newRows index) ∧
          after.MadeAnew request rowLength 0 0 after.total ∧
          after.capacities = layers.capacitiesFor after.total) := by
  intro layers request after
  have holds : layers.Holds scheme smallest (rowsSinceReset operations) :=
    (Holds.empty scheme smallest_pos).afterAll operations
  have whole : (layers.slots.map Slot.count).sum = layers.total :=
    holds.sum.trans holds.total.symm
  have total : after.total = layers.total + newRows :=
    (holds.update newRows rowLength tape).total.trans (congrArg (· + newRows) holds.total.symm)
  refine ⟨total, ?_⟩
  rw [total]
  rcases (layers.counting newRows rowLength).place_cases newRows with
    ⟨index, isSmallest, greatest, placed⟩ | ⟨full, isSmallest, placed⟩
  · obtain ⟨slot, held, -⟩ := greatest.1.2
    obtain ⟨anew, capacities, larger⟩ := update_madeAnew placed held tape
    have isFirst :
        layers.total + newRows - (newRows + ((layers.slots.drop index).map Slot.count).sum) =
          ((layers.slots.take index).map Slot.count).sum := by
      have parts := congrArg (fun slots => (slots.map Slot.count).sum)
        (List.take_append_drop index layers.slots)
      rw [List.map_append, List.sum_append, whole] at parts
      omega
    exact Or.inl ⟨index, greatest, isFirst ▸ anew, capacities, larger⟩
  · have isTotal : newRows + ((layers.counting newRows rowLength).slots.map Slot.count).sum =
        layers.total + newRows := by
      rw [Nat.add_comm]
      exact congrArg (· + newRows) whole
    rw [isTotal] at placed
    obtain ⟨anew, capacities, -⟩ := update_madeAnew placed (getElem?_vacantFor_zero _ _) tape
    have isFirst : layers.total + newRows - (layers.total + newRows) = 0 := Nat.sub_self _
    refine Or.inr ⟨full, isFirst ▸ anew, capacities.trans ?_⟩
    exact map_capacity_vacant (layers.capacitiesFor (layers.total + newRows))

/-- Rows that overflow the smallest layer are taken together with it into the next larger slot,
which had no layer, and the largest layer stays. -/
theorem update_merges_small_layers :
    let tape : Tape := ⟨fun _ => 0, 0⟩
    let operations : List Operation := [.update 10 1 tape, .update 2 1 tape]
    ∃ layers, layers = (empty .puncturedSets 3 three_pos).afterAll operations ∧
      layers.slots.map (fun slot => (slot.count, slot.capacity)) = [(10, 10), (0, 5), (2, 2)] ∧
      (layers.update 3 1 tape).2.1.MadeAnew (layers.update 3 1 tape).1 1 1 10 5 ∧
      (layers.update 3 1 tape).2.1.capacities = [10, 5, 2] ∧
      (layers.update 3 1 tape).2.1.slots[0]? = layers.slots[0]? := by
  intro tape operations
  have anew := update_makes_one_layer_anew .puncturedSets three_pos operations 3 1 tape
  have slots : ((empty .puncturedSets 3 three_pos).afterAll operations).slots.map
      (fun slot => (slot.count, slot.capacity)) = [(10, 10), (0, 5), (2, 2)] := by
    decide +kernel
  generalize (empty .puncturedSets 3 three_pos).afterAll operations = layers at anew slots
  have counts : layers.slots.map Slot.count = [10, 0, 2] := by
    have counts := congrArg (List.map Prod.fst) slots
    rwa [List.map_map] at counts
  have capacities : layers.slots.map Slot.capacity = [10, 5, 2] := by
    have capacities := congrArg (List.map Prod.snd) slots
    rwa [List.map_map] at capacities
  have middle : HasRoom layers.slots 3 1 := by
    rw [hasRoom_iff, counts, capacities]
    exact ⟨5, rfl, by decide⟩
  have small : ∀ index, 2 ≤ index → ¬ HasRoom layers.slots 3 index := by
    intro index beyond
    rw [hasRoom_iff, counts, capacities]
    rintro ⟨capacity, held, room⟩
    match index, beyond with
    | 2, _ => cases held; exact absurd room (by decide)
    | index + 3, _ => cases held
  refine ⟨layers, rfl, slots, ?_⟩
  rcases anew.2 with ⟨index, ⟨⟨positive, room⟩, -⟩, made, same, larger⟩ | ⟨full, -⟩
  · obtain rfl : index = 1 := by
      by_contra other
      exact small index (by omega) room
    rw [List.map_take, List.map_drop, counts] at made
    exact ⟨made, same.trans capacities, larger 0 Nat.one_pos⟩
  · exact absurd middle (full 1 (Nat.le_refl 1))

end Layers

end PrivateRetrieval
