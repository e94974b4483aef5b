/-
# Layers that lie next to each other

The layers that have rows tile the rows of a store: each begins where the one before it ends.
New rows are placed so that this stays so, since the layer that gets them takes over the rows of
all layers after it. A tiling carries a property of its layers along, so that what is known of
the layers is kept where they are.
-/

import PrivateRetrieval.Proofs.Table.Ranges
import PrivateRetrieval.Store.Layers

namespace PrivateRetrieval

namespace Slot

variable {slot : Slot} {layer : Layer}

theorem of_active? (active : slot.active? = some layer) :
    slot.layer = some layer ∧ 0 < layer.count := by
  rw [active?, Option.filter_eq_some_iff] at active
  obtain ⟨isLayer, filled⟩ := active
  exact ⟨isLayer, Nat.pos_of_ne_zero (of_decide_eq_true filled)⟩

theorem active?_of_layer (capacity : Nat) (filled : 0 < layer.count) :
    active? ⟨capacity, some layer⟩ = some layer := by
  rw [active?, Option.filter_some, if_pos (decide_eq_true (Nat.ne_of_gt filled))]

theorem count_of_active? (active : slot.active? = some layer) : slot.count = layer.count := by
  rw [count, (of_active? active).1]

theorem count_of_inactive (inactive : slot.active? = none) : slot.count = 0 := by
  rw [count]
  cases isLayer : slot.layer with
  | none => rfl
  | some layer =>
      rw [active?, isLayer, Option.filter_some] at inactive
      by_contra filled
      rw [if_pos (decide_eq_true filled)] at inactive
      cases inactive

/-- A client changes nothing about whether a slot has rows. -/
theorem active?_install (slot : Slot) (client : Client) :
    active? { slot with
      layer := slot.layer.map fun layer => { layer with client := some client } } =
      slot.active?.map fun layer => { layer with client := some client } := by
  obtain ⟨capacity, _ | layer⟩ := slot
  · rfl
  · rw [active?, active?, Option.map_some, Option.filter_some, Option.filter_some]
    by_cases filled : layer.count ≠ 0
    · rw [if_pos (decide_eq_true filled), if_pos (decide_eq_true filled), Option.map_some]
    · rw [if_neg (by simpa using filled), if_neg (by simpa using filled), Option.map_none]

end Slot

namespace Layers

theorem getElem?_install_self {slots : List Slot} {index : Nat} {slot : Slot}
    (held : slots[index]? = some slot) (client : Client) :
    (install slots index client)[index]? = some { slot with
      layer := slot.layer.map fun layer => { layer with client := some client } } := by
  rw [install, List.getElem?_modify, held]
  simp

theorem getElem?_install_of_ne {slots : List Slot} {index place : Nat} (other : place ≠ index)
    (client : Client) : (install slots index client)[place]? = slots[place]? := by
  rw [install, List.getElem?_modify]
  simp [other.symm]

/-- The layers of slots that have rows lie next to each other from one row up to another, and
each of them has a property. -/
inductive Tile (good : Layer → Prop) : Nat → List Slot → Nat → Prop
  | nil (row : Nat) : Tile good row [] row
  | vacant {slot : Slot} {slots : List Slot} {first last : Nat} :
      slot.active? = none → Tile good first slots last → Tile good first (slot :: slots) last
  | layer {slot : Slot} {slots : List Slot} {layer : Layer} {first last : Nat} :
      slot.active? = some layer → layer.first = first → good layer →
      Tile good layer.last slots last → Tile good first (slot :: slots) last

namespace Tile

variable {good better : Layer → Prop} {slots front back : List Slot} {first middle last : Nat}

/-- A tiling takes as many rows as its layers have. -/
theorem sum (tile : Tile good first slots last) :
    first + (slots.map Slot.count).sum = last := by
  induction tile with
  | nil row => rfl
  | vacant inactive _ ih =>
      rw [List.map_cons, List.sum_cons, Slot.count_of_inactive inactive, Nat.zero_add]
      exact ih
  | layer active isFirst _ _ ih =>
      rw [List.map_cons, List.sum_cons, Slot.count_of_active? active, ← isFirst, ← Nat.add_assoc]
      exact ih

theorem le (tile : Tile good first slots last) : first ≤ last :=
  (Nat.le_add_right _ _).trans_eq tile.sum

/-- The property of the layers may be exchanged for another one that layers in place have. -/
theorem imp (tile : Tile good first slots last)
    (improve : ∀ layer ∈ slots.filterMap Slot.active?, good layer → layer.first < layer.last →
      layer.last ≤ last → better layer) : Tile better first slots last := by
  induction tile with
  | nil row => exact .nil row
  | vacant inactive _ ih =>
      rw [List.filterMap_cons_none inactive] at improve
      exact .vacant inactive (ih improve)
  | @layer slot slots layer first last active isFirst isGood rest ih =>
      rw [List.filterMap_cons_some active] at improve
      have filled : layer.first < layer.last :=
        Nat.lt_add_of_pos_right (Slot.of_active? active).2
      refine .layer active isFirst (improve layer List.mem_cons_self isGood filled rest.le) (ih ?_)
      intro other member
      exact improve other (List.mem_cons_of_mem _ member)

theorem append (before : Tile good first front middle) (after : Tile good middle back last) :
    Tile good first (front ++ back) last := by
  induction before with
  | nil row => exact after
  | vacant inactive _ ih => exact .vacant inactive (ih after)
  | layer active isFirst isGood _ ih => exact .layer active isFirst isGood (ih after)

/-- The first slots tile what the rows of the others leave. -/
theorem take (tile : Tile good first slots last) (index : Nat) :
    ∃ middle, Tile good first (slots.take index) middle ∧
      middle + ((slots.drop index).map Slot.count).sum = last := by
  induction tile generalizing index with
  | nil row =>
      rw [List.take_nil, List.drop_nil]
      exact ⟨row, .nil row, rfl⟩
  | @vacant slot slots first last inactive rest ih =>
      cases index with
      | zero => exact ⟨first, .nil first, (Tile.vacant inactive rest).sum⟩
      | succ index =>
          obtain ⟨middle, before, sum⟩ := ih index
          exact ⟨middle, .vacant inactive before, sum⟩
  | @layer slot slots layer first last active isFirst isGood rest ih =>
      cases index with
      | zero => exact ⟨first, .nil first, (Tile.layer active isFirst isGood rest).sum⟩
      | succ index =>
          obtain ⟨middle, before, sum⟩ := ih index
          exact ⟨middle, .layer active isFirst isGood before, sum⟩

theorem vacants (good : Layer → Prop) (row : Nat) (capacities : List Nat) :
    Tile good row (capacities.map Slot.vacant) row := by
  induction capacities with
  | nil => exact .nil row
  | cons capacity rest ih => exact .vacant rfl ih

/-- A layer that has rows is within the range and has the property. -/
theorem of_active? (tile : Tile good first slots last) {index : Nat} {slot : Slot} {layer : Layer}
    (held : slots[index]? = some slot) (active : slot.active? = some layer) :
    good layer ∧ first ≤ layer.first ∧ layer.last ≤ last := by
  induction tile generalizing index with
  | nil row => cases held
  | vacant inactive _ ih =>
      cases index with
      | zero =>
          cases held
          rw [inactive] at active
          cases active
      | succ index => exact ih held
  | @layer _ _ other first last isActive isFirst isGood rest ih =>
      cases index with
      | zero =>
          cases held
          obtain rfl : other = layer := Option.some.inj (isActive.symm.trans active)
          exact ⟨isGood, isFirst.ge, rest.le⟩
      | succ index =>
          obtain ⟨isGood, below, inside⟩ := ih held
          exact ⟨isGood, isFirst.ge.trans ((Nat.le_add_right _ _).trans below), inside⟩

/-- A client may be put into a layer that has the property with this client, too. -/
theorem install (tile : Tile good first slots last) {index : Nat} {client : Client}
    (fits : ∀ slot layer, slots[index]? = some slot → slot.active? = some layer → good layer →
      good { layer with client := some client }) :
    Tile good first (Layers.install slots index client) last := by
  induction tile generalizing index with
  | nil row =>
      rw [Layers.install, List.modify_nil]
      exact .nil row
  | @vacant slot slots first last inactive rest ih =>
      cases index with
      | zero =>
          refine .vacant ?_ rest
          rw [Slot.active?_install, inactive, Option.map_none]
      | succ index => exact .vacant inactive (ih fits)
  | @layer slot slots layer first last active isFirst isGood rest ih =>
      cases index with
      | zero =>
          have isGoodNow := fits slot layer rfl active isGood
          have activeNow := Slot.active?_install slot client
          rw [active, Option.map_some] at activeNow
          exact Tile.layer activeNow isFirst isGoodNow rest
      | succ index => exact .layer active isFirst isGood (ih fits)

end Tile

/-! ## Placing rows -/

/-- Layers that count new rows before these are placed. -/
def counting (layers : Layers) (newRows rowLength : Nat) : Layers :=
  { layers with total := layers.total + newRows, rowLength, pending := none }

theorem update_eq (layers : Layers) (newRows rowLength : Nat) (tape : Tape) :
    layers.update newRows rowLength tape =
      ((layers.counting newRows rowLength).place newRows).2.requestHint
        ((layers.counting newRows rowLength).place newRows).1 tape := rfl

/-- The rows that a layer gets are the new ones and those of its slot and all slots after it. If no
slot has room, these are all rows. -/
theorem findRoom_spec (slots : List Slot) (incoming : Nat) :
    (findRoom slots incoming).1 =
        incoming + ((slots.drop ((findRoom slots incoming).2.getD 0)).map Slot.count).sum ∧
      ∀ index, (findRoom slots incoming).2 = some index → index < slots.length := by
  induction slots with
  | nil => exact ⟨rfl, fun index found => by cases found⟩
  | cons slot smaller ih =>
      obtain ⟨total, room⟩ := ih
      rw [findRoom]
      rcases below : findRoom smaller incoming with ⟨count, _ | index⟩
      · rw [below] at total
        refine ⟨?_, ?_⟩
        · have all : count = incoming + (smaller.map Slot.count).sum := total
          dsimp only
          split
          · show count + slot.count = incoming + (slot.count + (smaller.map Slot.count).sum)
            omega
          · show count + slot.count = incoming + (slot.count + (smaller.map Slot.count).sum)
            omega
        · intro index found
          dsimp only at found
          split at found
          · cases found
            exact Nat.zero_lt_succ _
          · cases found
      · rw [below] at total room
        refine ⟨total, ?_⟩
        intro other found
        cases found
        exact Nat.succ_lt_succ (room index rfl)

/-- A layer in a slot leaves the slots before it and empties those after it. -/
theorem putLayer_eq {slots : List Slot} {index : Nat} {slot : Slot}
    (held : slots[index]? = some slot)
    (layer : Layer) :
    putLayer slots index layer = slots.take index ++ { slot with layer := some layer } ::
      ((slots.drop (index + 1)).map Slot.capacity).map Slot.vacant := by
  induction slots generalizing index with
  | nil => cases held
  | cons first rest ih =>
      cases index with
      | zero =>
          cases held
          rw [putLayer, List.mapIdx_cons, if_neg (Nat.lt_irrefl 0), if_pos rfl, List.map_map]
          refine congrArg (_ :: ·) (List.ext_getElem? fun place => ?_)
          rw [List.getElem?_mapIdx, List.getElem?_map]
          rfl
      | succ index =>
          have tail := ih held
          rw [putLayer] at tail
          rw [putLayer, List.mapIdx_cons, if_pos (Nat.zero_lt_succ index), List.take_succ_cons,
            List.cons_append, List.drop_succ_cons, ← tail]
          refine congrArg (first :: ·) ?_
          congr 1
          funext place other
          simp only [Nat.add_lt_add_iff_right, Nat.add_right_cancel_iff]

variable {good : Layer → Prop} {slots : List Slot}

/-- A layer of the last rows tiles what a tiling and new rows take, if it takes over the rows
from a slot on. -/
theorem Tile.putLayer {total : Nat} (tile : Tile good 0 slots total) {index newRows : Nat}
    {layer : Layer} (inside : index < slots.length) (filled : 0 < newRows)
    (count : layer.count = newRows + ((slots.drop index).map Slot.count).sum)
    (isFirst : layer.first = total + newRows - layer.count) (isGood : good layer) :
    Tile good 0 (Layers.putLayer slots index layer) (total + newRows) ∧
      ∃ slot, (Layers.putLayer slots index layer)[index]? = some slot ∧
        slot.active? = some layer := by
  obtain ⟨middle, before, rows⟩ := tile.take index
  rw [putLayer_eq (List.getElem?_eq_getElem inside)]
  have active : Slot.active? { slots[index] with layer := some layer } = some layer :=
    Slot.active?_of_layer _ (by omega)
  refine ⟨before.append (.layer active ?_ isGood ?_), _, ?_, active⟩
  · omega
  · have isLast : layer.last = total + newRows := by
      rw [Layer.last]
      omega
    rw [isLast]
    exact .vacants good _ _
  · have length : (slots.take index).length = index := List.length_take_of_le inside.le
    rw [List.getElem?_append_right (by omega), length, Nat.sub_self, List.getElem?_cons_zero]

theorem capacitiesFor_eq_cons (layers : Layers) (count : Nat) :
    ∃ rest, layers.capacitiesFor count = count :: rest := by
  rw [capacitiesFor]
  split
  · exact ⟨_, rfl⟩
  · exact ⟨_, rfl⟩

/-- A layer of all rows in the first of empty slots tiles them. -/
theorem tile_anew (layers : Layers) (filled : 0 < layers.total) (isSmallest : Bool)
    (isGood : ∀ layer : Layer, layer.client = none → good layer) :
    let slots := putLayer ((layers.capacitiesFor layers.total).map Slot.vacant) 0
      (layers.lastRows layers.total isSmallest)
    Tile good 0 slots layers.total ∧
      ∃ slot layer, slots[0]? = some slot ∧ slot.active? = some layer ∧ layer.client = none := by
  obtain ⟨rest, capacities⟩ := layers.capacitiesFor_eq_cons layers.total
  have vacants := Tile.vacants good 0 (layers.capacitiesFor layers.total)
  have inside : 0 < ((layers.capacitiesFor layers.total).map Slot.vacant).length := by
    rw [capacities]
    exact Nat.zero_lt_succ _
  have empty := vacants.sum
  rw [Nat.zero_add] at empty
  obtain ⟨tile, slot, held, active⟩ := @Tile.putLayer good _ 0 vacants 0 layers.total
    (layers.lastRows layers.total isSmallest) inside filled (by rw [List.drop_zero, empty]; rfl)
    (by rw [Nat.zero_add]; rfl) (isGood _ rfl)
  rw [Nat.zero_add] at tile
  exact ⟨tile, slot, _, held, active, rfl⟩

/-- Placing new rows keeps the tiling. One layer is made anew, and it has no client yet. -/
theorem place_spec {layers : Layers} {old newRows : Nat} (tile : Tile good 0 layers.slots old)
    (total : layers.total = old + newRows) (filled : 0 < newRows)
    (isGood : ∀ layer : Layer, layer.client = none → good layer) :
    ∃ index slots, layers.place newRows = (index, { layers with slots }) ∧
      Tile good 0 slots layers.total ∧
      ∃ slot layer, slots[index]? = some slot ∧ slot.active? = some layer ∧
        layer.client = none := by
  obtain ⟨count, room⟩ := findRoom_spec layers.slots newRows
  have whole := tile.sum
  rw [place]
  rcases found : findRoom layers.slots newRows with ⟨rows, _ | _ | index⟩
  · rw [found] at count
    have count : rows = newRows + (layers.slots.map Slot.count).sum := count
    obtain rfl : rows = layers.total := by omega
    exact ⟨0, _, rfl, layers.tile_anew (by omega) _ isGood⟩
  · rw [found] at count
    have count : rows = newRows + (layers.slots.map Slot.count).sum := count
    obtain rfl : rows = layers.total := by omega
    exact ⟨0, _, rfl, layers.tile_anew (by omega) _ isGood⟩
  · rw [found] at count room
    obtain ⟨placed, slot, held, active⟩ := @Tile.putLayer good _ old tile (index + 1) newRows
      (layers.lastRows rows (decide (index + 2 = layers.slots.length))) (room _ rfl) filled count
      (by rw [← total]; rfl) (isGood _ rfl)
    rw [← total] at placed
    exact ⟨index + 1, _, rfl, placed, slot, _, held, active, rfl⟩

end Layers

end PrivateRetrieval
