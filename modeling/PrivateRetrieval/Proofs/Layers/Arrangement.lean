/-
# The arrangement of slots

The capacities of the slots halve from one slot to the next, the layers lie next to each other, no
layer is larger than its slot, and the largest slot is full. New rows are placed so that this stays
so: either a smaller slot has room for them and for the layers that it takes over, or all layers are
made anew, with capacities that fit the number of rows. The largest layer is never taken over
without that. Layers may be without rows.
-/

import PrivateRetrieval.Proofs.Layers.Outline

namespace PrivateRetrieval

namespace Layers

/-! ## Capacities -/

/-- The halves of a capacity are the quotients by the powers of two, up to the first one that is not
above the smallest capacity. -/
theorem halves_eq_map {smallest bound capacity : Nat} (inside : capacity ≤ bound) :
    ∃ halvings, capacity :: halves smallest bound capacity =
        (List.range (halvings + 1)).map (capacity / 2 ^ ·) ∧
      capacity / 2 ^ halvings ≤ smallest ∧
      ∀ count < halvings, smallest < capacity / 2 ^ count := by
  induction bound generalizing capacity with
  | zero =>
      obtain rfl : capacity = 0 := Nat.le_zero.mp inside
      exact ⟨0, rfl, Nat.zero_le _, fun count less => absurd less (Nat.not_lt_zero _)⟩
  | succ bound ih =>
      rw [halves]
      by_cases above : smallest < capacity
      · have half : capacity / 2 ≤ bound := by omega
        obtain ⟨halvings, isHalves, below, before⟩ := ih half
        have power : ∀ count, capacity / 2 ^ (count + 1) = capacity / 2 / 2 ^ count := by
          intro count
          rw [Nat.div_div_eq_div_mul, Nat.pow_succ']
        refine ⟨halvings + 1, ?_, (power halvings).trans_le below, ?_⟩
        · rw [if_pos above, isHalves, List.range_succ_eq_map (n := halvings + 1), List.map_cons,
            List.map_map, Nat.pow_zero, Nat.div_one]
          congr 1
          exact List.map_congr_left fun count _ => (power count).symm
        · intro count less
          cases count with
          | zero => rwa [Nat.pow_zero, Nat.div_one]
          | succ count =>
              rw [power]
              exact before count (Nat.lt_of_succ_lt_succ less)
      · rw [if_neg above]
        refine ⟨0, ?_, ?_, fun count less => absurd less (Nat.not_lt_zero _)⟩
        · rw [List.range_one, List.map_singleton, Nat.pow_zero, Nat.div_one]
        · rw [Nat.pow_zero, Nat.div_one]
          exact Nat.not_lt.mp above

/-- Quotients by powers of two fall as long as something is left of them. -/
theorem pairwise_halvings {smallest capacity halvings : Nat}
    (above : ∀ count < halvings, smallest < capacity / 2 ^ count) :
    ((List.range (halvings + 1)).map (capacity / 2 ^ ·)).Pairwise (· > ·) := by
  rw [List.pairwise_map]
  refine List.pairwise_lt_range.imp_of_mem fun {first second} _ member less => ?_
  have inside : first < halvings := by
    rw [List.mem_range] at member
    omega
  calc capacity / 2 ^ second ≤ capacity / 2 ^ (first + 1) :=
        Nat.div_le_div_left (Nat.pow_le_pow_right two_pos less) (Nat.two_pow_pos _)
    _ = capacity / 2 ^ first / 2 := by rw [Nat.pow_succ, Nat.div_div_eq_div_mul]
    _ < capacity / 2 ^ first := Nat.div_lt_self (Nat.zero_lt_of_lt (above first inside)) one_lt_two

theorem sum_halves_le (smallest bound capacity : Nat) :
    (halves smallest bound capacity).sum ≤ capacity := by
  induction bound generalizing capacity with
  | zero => exact Nat.zero_le _
  | succ bound ih =>
      rw [halves]
      split
      · have rest := ih (capacity / 2)
        rw [List.sum_cons]
        omega
      · exact Nat.zero_le _

/-- All slots together hold at most twice as many rows as the largest one. -/
theorem sum_capacitiesFor_le (layers : Layers) (count : Nat) :
    (layers.capacitiesFor count).sum ≤ 2 * count := by
  rw [capacitiesFor]
  split
  · have rest := sum_halves_le layers.smallest count count
    rw [List.sum_cons]
    omega
  · rw [List.sum_singleton]
    omega

/-! ## Spans -/

/-- Layers lie next to each other from one row up to another. -/
def Spans : Nat → List Layer → Nat → Prop
  | first, [], last => first = last
  | first, layer :: rest, last => layer.first = first ∧ Spans layer.last rest last

theorem spans_append {first last : Nat} {front back : List Layer} :
    Spans first (front ++ back) last ↔
      ∃ middle, Spans first front middle ∧ Spans middle back last := by
  induction front generalizing first with
  | nil => simp [Spans]
  | cons layer rest ih => simp [Spans, ih, and_assoc]

theorem Spans.sum {first last : Nat} {held : List Layer} (spans : Spans first held last) :
    first + (held.map Layer.count).sum = last := by
  induction held generalizing first with
  | nil => exact spans
  | cons layer rest ih =>
      obtain ⟨isFirst, rest⟩ := spans
      rw [List.map_cons, List.sum_cons, ← isFirst, ← Nat.add_assoc]
      exact ih rest

/-- Layers without rows may be left out. -/
theorem Spans.filter {first last : Nat} {held : List Layer} (spans : Spans first held last) :
    Spans first (held.filter fun layer => layer.count ≠ 0) last := by
  induction held generalizing first with
  | nil => exact spans
  | cons layer rest ih =>
      obtain ⟨isFirst, rest⟩ := spans
      by_cases filled : layer.count ≠ 0
      · rw [List.filter_cons, if_pos (decide_eq_true filled)]
        exact ⟨isFirst, ih rest⟩
      · rw [List.filter_cons, if_neg (mt of_decide_eq_true filled)]
        have isLast : layer.last = first := by
          rw [Layer.last, not_ne_iff.mp filled, Nat.add_zero, isFirst]
        exact ih (isLast ▸ rest)

/-- The layers of a tiling lie next to each other. -/
theorem Tile.spans {good : Layer → Prop} {slots : List Slot} {first last : Nat}
    (tile : Tile good first slots last) : Spans first (slots.filterMap Slot.active?) last := by
  induction tile with
  | nil row => rfl
  | vacant inactive _ ih =>
      rw [List.filterMap_cons_none inactive]
      exact ih
  | layer active isFirst _ _ ih =>
      rw [List.filterMap_cons_some active]
      exact ⟨isFirst, ih⟩

theorem active_eq_filter (layers : Layers) :
    layers.active =
      (layers.slots.filterMap Slot.layer).filter fun layer => layer.count ≠ 0 := by
  rw [List.filter_filterMap]
  rfl

theorem sum_count (slots : List Slot) :
    (slots.map Slot.count).sum = ((slots.filterMap Slot.layer).map Layer.count).sum := by
  induction slots with
  | nil => rfl
  | cons slot rest ih =>
      rw [List.map_cons, List.sum_cons, ih, Slot.count]
      cases isLayer : slot.layer with
      | none =>
          rw [List.filterMap_cons_none isLayer]
          exact Nat.zero_add _
      | some layer => rw [List.filterMap_cons_some isLayer, List.map_cons, List.sum_cons]

theorem spans_map_outline {first last : Nat} {held : List Layer} :
    Spans first (held.map Layer.outline) last ↔ Spans first held last := by
  induction held generalizing first with
  | nil => exact Iff.rfl
  | cons layer rest ih => exact and_congr Iff.rfl ih

/-! ## Slots -/

/-- A layer is read with punctured sets only if it is large enough and not the smallest. -/
theorem of_schemeFor {layers : Layers} {isSmallest : Bool} {count : Nat}
    (punctured : layers.schemeFor isSmallest count = .puncturedSets) :
    isSmallest = false ∧ supportsSets count = true := by
  rw [schemeFor] at punctured
  split at punctured
  · cases punctured
  · rename_i other
    simpa [punctured] using other

/-- How the slots of layers are laid out for so many rows. -/
structure Arranged (layers : Layers) (rows : Nat) : Prop where
  /-- The layers of the slots have all rows, in order. -/
  spans : Spans 0 (layers.slots.filterMap Slot.layer) rows
  /-- The capacities follow from that of the largest slot. -/
  capacities : ∀ slot : Slot, layers.slots[0]? = some slot →
    layers.capacities = layers.capacitiesFor slot.capacity
  /-- The largest slot is full. -/
  full : ∀ slot : Slot, layers.slots[0]? = some slot →
    ∃ layer : Layer, slot.layer = some layer ∧ layer.count = slot.capacity
  /-- A layer has room in its slot and the scheme that belongs there. -/
  placed : ∀ (index : Nat) (slot : Slot) (layer : Layer), layers.slots[index]? = some slot →
    slot.layer = some layer → layer.count ≤ slot.capacity ∧
      layer.scheme = layers.schemeFor (decide (index + 1 = layers.slots.length)) layer.count

theorem arranged_nil {layers : Layers} (slots : layers.slots = []) : layers.Arranged 0 where
  spans := by
    rw [slots]
    rfl
  capacities slot held := by
    rw [slots] at held
    cases held
  full slot held := by
    rw [slots] at held
    cases held
  placed index slot layer held := by
    rw [slots] at held
    cases held

namespace Arranged

variable {layers : Layers} {rows : Nat}

/-- The rows are as many as the layers have. -/
theorem sum (arranged : layers.Arranged rows) : (layers.slots.map Slot.count).sum = rows := by
  have sum := arranged.spans.sum
  rwa [Nat.zero_add, ← sum_count] at sum

theorem count_le (arranged : layers.Arranged rows) {slot : Slot} (member : slot ∈ layers.slots) :
    slot.count ≤ slot.capacity := by
  obtain ⟨index, held⟩ := List.mem_iff_getElem?.mp member
  rw [Slot.count]
  cases isLayer : slot.layer with
  | none => exact Nat.zero_le _
  | some layer => exact (arranged.placed index slot layer held isLayer).1

/-- There are at most twice as many rows as when all layers were made anew. -/
theorem rows_le (arranged : layers.Arranged rows) {slot : Slot}
    (held : layers.slots[0]? = some slot) : rows ≤ 2 * slot.capacity :=
  calc rows = (layers.slots.map Slot.count).sum := arranged.sum.symm
    _ ≤ (layers.slots.map Slot.capacity).sum :=
      List.sum_le_sum fun _ member => arranged.count_le member
    _ = (layers.capacitiesFor slot.capacity).sum :=
      congrArg List.sum (arranged.capacities slot held)
    _ ≤ 2 * slot.capacity := layers.sum_capacitiesFor_le slot.capacity

/-- Clients do not matter. -/
theorem of_outline (arranged : layers.Arranged rows) {after : Layers}
    (same : after.outline = layers.outline) : after.Arranged rows := by
  have slots : after.slots.map Slot.outline = layers.slots.map Slot.outline :=
    congrArg Layers.slots same
  have isScheme : after.scheme = layers.scheme := by
    show after.outline.scheme = layers.outline.scheme
    rw [same]
  have isSmallest : after.smallest = layers.smallest := by
    show after.outline.smallest = layers.outline.smallest
    rw [same]
  have length : after.slots.length = layers.slots.length := by
    rw [← List.length_map Slot.outline, slots, List.length_map]
  have capacities : after.capacities = layers.capacities := map_capacity_of_outline slots
  refine ⟨?_, ?_, ?_, ?_⟩
  · rw [← spans_map_outline, ← filterMap_map_outline, slots, filterMap_map_outline,
      spans_map_outline]
    exact arranged.spans
  · intro slot held
    obtain ⟨old, isOld, sameOutline⟩ := getElem?_of_outline slots held
    rw [capacities, arranged.capacities old isOld, (Slot.of_outline sameOutline).1, capacitiesFor,
      capacitiesFor, isScheme, isSmallest]
  · intro slot held
    obtain ⟨old, isOld, sameOutline⟩ := getElem?_of_outline slots held
    obtain ⟨oldLayer, isOldLayer, isFull⟩ := arranged.full old isOld
    obtain ⟨capacity, found⟩ := Slot.of_outline sameOutline.symm
    obtain ⟨layer, isLayer, count, -⟩ := found oldLayer isOldLayer
    exact ⟨layer, isLayer, by rw [← count, isFull, capacity]⟩
  · intro index slot layer held isLayer
    obtain ⟨old, isOld, sameOutline⟩ := getElem?_of_outline slots held
    obtain ⟨capacity, found⟩ := Slot.of_outline sameOutline
    obtain ⟨oldLayer, isOldLayer, count, schemeBefore⟩ := found layer isLayer
    rw [count, capacity, schemeBefore, schemeFor, isScheme, length]
    exact arranged.placed index old oldLayer isOld isOldLayer

end Arranged

/-! ## Placing rows -/

/-- The slot that is found has room for the rows that were counted. -/
theorem fst_findRoom_le {slots : List Slot} {incoming index : Nat} {slot : Slot}
    (found : (findRoom slots incoming).2 = some index) (held : slots[index]? = some slot) :
    (findRoom slots incoming).1 ≤ slot.capacity := by
  induction slots generalizing index with
  | nil => cases held
  | cons first smaller ih =>
      rw [findRoom] at found ⊢
      rcases below : findRoom smaller incoming with ⟨total, _ | place⟩
      · rw [below] at found
        dsimp only at found ⊢
        split at found
        · rename_i room
          cases found
          cases held
          exact room
        · cases found
      · rw [below] at found ih
        cases found
        exact ih rfl held

theorem getElem?_putLayer (slots : List Slot) (index : Nat) (layer : Layer) (place : Nat) :
    (putLayer slots index layer)[place]? = slots[place]?.map fun slot =>
      if place < index then slot
      else if place = index then { slot with layer := some layer }
      else Slot.vacant slot.capacity := by
  rw [putLayer, List.getElem?_mapIdx]

theorem getElem?_putLayer_of_lt {slots : List Slot} {index place : Nat} {layer : Layer}
    (before : place < index) : (putLayer slots index layer)[place]? = slots[place]? := by
  rw [getElem?_putLayer]
  simp only [if_pos before, Option.map_id']

theorem length_putLayer (slots : List Slot) (index : Nat) (layer : Layer) :
    (putLayer slots index layer).length = slots.length := by
  rw [putLayer, List.length_mapIdx]

theorem map_capacity_putLayer (slots : List Slot) (index : Nat) (layer : Layer) :
    (putLayer slots index layer).map Slot.capacity = slots.map Slot.capacity := by
  apply List.ext_getElem?
  intro place
  rw [List.getElem?_map, getElem?_putLayer, List.getElem?_map, Option.map_map]
  congr 1
  funext slot
  dsimp only [Function.comp]
  split
  · rfl
  · split <;> rfl

theorem map_capacity_vacant (capacities : List Nat) :
    (capacities.map Slot.vacant).map Slot.capacity = capacities := by
  rw [List.map_map]
  exact List.map_id capacities

theorem filterMap_vacant (capacities : List Nat) :
    (capacities.map Slot.vacant).filterMap Slot.layer = [] := by
  rw [List.filterMap_map, List.filterMap_eq_nil_iff]
  exact fun _ _ => rfl

/-- Slots are arranged if all layers are made anew. -/
theorem arranged_anew (layers : Layers) :
    let vacant := (layers.capacitiesFor layers.total).map Slot.vacant
    Arranged
      { layers with
        slots := putLayer vacant 0 (layers.lastRows layers.total (decide (vacant.length = 1))) }
      layers.total := by
  obtain ⟨rest, capacities⟩ := layers.capacitiesFor_eq_cons layers.total
  intro vacant
  set layer := layers.lastRows layers.total (decide (vacant.length = 1)) with isLayer
  have isVacant : vacant = Slot.vacant layers.total :: rest.map Slot.vacant := by
    rw [← List.map_cons, ← capacities]
  have slots : putLayer vacant 0 layer = ⟨layers.total, some layer⟩ :: rest.map Slot.vacant := by
    have held : vacant[0]? = some (Slot.vacant layers.total) := by
      rw [isVacant, List.getElem?_cons_zero]
    rw [putLayer_eq held, isVacant, List.take_zero, List.nil_append, List.drop_succ_cons,
      List.drop_zero, map_capacity_vacant]
    rfl
  rw [slots]
  refine ⟨?_, ?_, ?_, ?_⟩
  · show Spans 0 (layer :: (rest.map Slot.vacant).filterMap Slot.layer) layers.total
    rw [filterMap_vacant]
    refine ⟨Nat.sub_self _, ?_⟩
    show layers.total - layers.total + layers.total = layers.total
    rw [Nat.sub_self, Nat.zero_add]
  · intro slot held
    cases held
    show layers.total :: (rest.map Slot.vacant).map Slot.capacity =
      layers.capacitiesFor layers.total
    rw [capacities, map_capacity_vacant]
  · intro slot held
    cases held
    exact ⟨layer, rfl, rfl⟩
  · intro index slot other held isOther
    cases index with
    | zero =>
        cases held
        cases isOther
        refine ⟨Nat.le_refl _, ?_⟩
        have same : decide (vacant.length = 1) =
            decide (1 = (rest.map Slot.vacant).length + 1) := by
          rw [isVacant, List.length_cons]
          exact decide_eq_decide.mpr eq_comm
        exact congrArg (layers.schemeFor · layers.total) same
    | succ index =>
        rw [List.getElem?_cons_succ, List.getElem?_map] at held
        obtain ⟨capacity, -, rfl⟩ := Option.map_eq_some_iff.mp held
        cases isOther

/-- Slots are arranged if a layer of the last rows takes over the rows from a slot on that has room
for it and is not the largest. -/
theorem Arranged.putLayer {layers : Layers} {old newRows index count : Nat} {slot : Slot}
    (arranged : layers.Arranged old) (total : layers.total = old + newRows)
    (isCount : count = newRows + ((layers.slots.drop (index + 1)).map Slot.count).sum)
    (held : layers.slots[index + 1]? = some slot) (room : count ≤ slot.capacity) :
    Arranged
      { layers with
        slots := Layers.putLayer layers.slots (index + 1)
          (layers.lastRows count (decide (index + 2 = layers.slots.length))) }
      (old + newRows) := by
  set layer := layers.lastRows count (decide (index + 2 = layers.slots.length)) with isLayer
  have slots := putLayer_eq held layer
  refine ⟨?_, ?_, ?_, ?_⟩
  · -- The layers before the slot span the rows that the new layer does not take over.
    have spans := arranged.spans
    rw [← List.take_append_drop (index + 1) layers.slots, List.filterMap_append,
      spans_append] at spans
    obtain ⟨middle, before, after⟩ := spans
    have sum := after.sum
    rw [← sum_count] at sum
    have isFirst : layer.first = middle := by
      show layers.total - count = middle
      omega
    have isLast : layer.last = old + newRows := by
      rw [Layer.last, isFirst]
      show middle + count = old + newRows
      omega
    show Spans 0 ((Layers.putLayer layers.slots (index + 1) layer).filterMap Slot.layer)
      (old + newRows)
    rw [slots, List.filterMap_append, spans_append]
    refine ⟨middle, before, ?_⟩
    show Spans middle (layer :: List.filterMap Slot.layer _) (old + newRows)
    rw [filterMap_vacant]
    exact ⟨isFirst, isLast⟩
  · intro first isFirst
    rw [getElem?_putLayer_of_lt (Nat.zero_lt_succ index)] at isFirst
    show (Layers.putLayer layers.slots (index + 1) layer).map Slot.capacity =
      layers.capacitiesFor first.capacity
    rw [map_capacity_putLayer]
    exact arranged.capacities first isFirst
  · intro first isFirst
    rw [getElem?_putLayer_of_lt (Nat.zero_lt_succ index)] at isFirst
    exact arranged.full first isFirst
  · intro place other otherLayer isOther isOtherLayer
    rw [length_putLayer]
    rcases lt_trichotomy place (index + 1) with before | rfl | after
    · rw [getElem?_putLayer_of_lt before] at isOther
      exact arranged.placed place other otherLayer isOther isOtherLayer
    · rw [getElem?_putLayer, held, Option.map_some, if_neg (Nat.lt_irrefl _), if_pos rfl] at isOther
      cases isOther
      cases isOtherLayer
      exact ⟨room, rfl⟩
    · rw [getElem?_putLayer] at isOther
      obtain ⟨old, -, isVacant⟩ := Option.map_eq_some_iff.mp isOther
      rw [if_neg after.not_gt, if_neg after.ne'] at isVacant
      rw [← isVacant] at isOtherLayer
      cases isOtherLayer

/-- Placing new rows changes the slots only. -/
theorem place_eq (layers : Layers) (newRows : Nat) :
    ∃ index slots, layers.place newRows = (index, { layers with slots }) := by
  rw [place]
  split
  · exact ⟨_, _, rfl⟩
  · exact ⟨_, _, rfl⟩

/-- Placing new rows keeps the slots arranged. -/
theorem Arranged.place {layers : Layers} {old newRows : Nat} (arranged : layers.Arranged old)
    (total : layers.total = old + newRows) :
    (layers.place newRows).2.Arranged (old + newRows) := by
  obtain ⟨count, inside⟩ := findRoom_spec layers.slots newRows
  have room := @fst_findRoom_le layers.slots newRows
  have whole := arranged.sum
  rw [Layers.place]
  rcases found : findRoom layers.slots newRows with ⟨rows, _ | _ | index⟩
  · rw [found] at count
    have count : rows = newRows + (layers.slots.map Slot.count).sum := count
    obtain rfl : rows = layers.total := by omega
    rw [← total]
    exact layers.arranged_anew
  · rw [found] at count
    have count : rows = newRows + (layers.slots.map Slot.count).sum := count
    obtain rfl : rows = layers.total := by omega
    rw [← total]
    exact layers.arranged_anew
  · rw [found] at count inside room
    have held := List.getElem?_eq_getElem (inside _ rfl)
    exact arranged.putLayer total count held (room rfl held)

end Layers

end PrivateRetrieval
