/-
# Layers that fit a table

Layers fit a table if they tile its rows and the client of each layer serves the layer's range.
Steps that prepare layers keep this, and each of them makes layers ready that were not. So a
client that asks for one missing hint after the other is done after as many steps as there are
slots.

What is said of the clients is a parameter: it may be anything that clients have when they are
new.
-/

import PrivateRetrieval.Proofs.Layers.Tiling
import PrivateRetrieval.Proofs.Retrieval.Serving

namespace PrivateRetrieval

/-- A property that clients have of their tables when they are new, whether they are made of an
honest hint or need none. -/
structure Client.HoldsOfNew (good : Client → Table → Prop) : Prop where
  withoutHint : ∀ {scheme : Scheme} {table : Table} {client : Client},
    Client.withoutHint scheme table.shape = .ok client → good client table
  ofHint : ∀ {table : Table} {scheme : Scheme} {drawing tape later : Tape} {hint : Hint}
    {client : Client}, table.hint (HintRequest.fresh scheme drawing).1 = .ok hint →
    Client.ofHint hint tape = .ok (client, later) → good client table

/-- A client serves a table, if the numbers of its rows fit a word of 32 bits. -/
def Client.ServesFew (client : Client) (table : Table) : Prop :=
  table.rowCount ≤ 2 ^ 32 → client.Serves table

theorem Client.holdsOfNew_servesFew : HoldsOfNew ServesFew where
  withoutHint := fun made _ => (serves_withoutHint made).1
  ofHint := fun isHint made few => (serves_ofHint few isHint made).1

theorem Client.holdsOfNew_sumsOver : HoldsOfNew SumsOver where
  withoutHint := sumsOver_withoutHint
  ofHint := sumsOver_ofHint

/-- The client of a layer, if it has one, has a property of the layer's range of a table, and it is
of the scheme of the layer. -/
def Layer.Suits (good : Client → Table → Prop) (table : Table) (layer : Layer) : Prop :=
  ∀ client, layer.client = some client → ∃ range,
    table.slice layer.first layer.last = .ok range ∧ good client range ∧
      client.scheme = layer.scheme

theorem Layer.suits_of_none {good : Client → Table → Prop} {table : Table} {layer : Layer}
    (none : layer.client = none) : layer.Suits good table := by
  intro client isClient
  rw [none] at isClient
  cases isClient

theorem Slot.isUnready_iff {slot : Slot} :
    slot.isUnready = true ↔ ∃ layer, slot.active? = some layer ∧ layer.client = none := by
  rw [isUnready]
  cases slot.active? with
  | none => simp
  | some layer => simp [Option.isNone_iff_eq_none]

theorem Slot.isUnready_install (slot : Slot) (client : Client) :
    isUnready { slot with
      layer := slot.layer.map fun layer => { layer with client := some client } } = false := by
  rw [isUnready, active?_install]
  cases slot.active? with
  | none => rfl
  | some layer => rfl

namespace Layers

/-- A layer that has rows is in a slot. -/
theorem exists_slot_of_mem_active {layers : Layers} {layer : Layer}
    (member : layer ∈ layers.active) :
    ∃ (index : Nat) (slot : Slot),
      layers.slots[index]? = some slot ∧ slot.active? = some layer := by
  obtain ⟨slot, inSlots, active⟩ := List.mem_filterMap.mp member
  obtain ⟨index, held⟩ := List.mem_iff_getElem?.mp inSlots
  exact ⟨index, slot, held, active⟩

/-- Layers tile the rows of a table, and their clients have a property of their ranges. -/
structure Fits (good : Client → Table → Prop) (layers : Layers) (table : Table) : Prop where
  tile : Tile (Layer.Suits good table) 0 layers.slots layers.total
  total : layers.total = table.rowCount
  rowLength : 0 < layers.total → layers.rowLength = table.rowLength

/-- How many slots have a layer without a client. -/
def unreadyCount (layers : Layers) : Nat := layers.slots.countP Slot.isUnready

/-- A slot that is not ready has a layer with rows. -/
theorem unreadyCount_le_length_active (layers : Layers) :
    layers.unreadyCount ≤ layers.active.length := by
  rw [unreadyCount, active, List.length_filterMap_eq_countP]
  refine List.countP_mono_left fun slot _ unready => ?_
  obtain ⟨layer, active, -⟩ := Slot.isUnready_iff.mp unready
  rw [active, Option.isSome_some]

/-- All layers that have rows have clients. -/
def Ready (layers : Layers) : Prop := ∀ layer ∈ layers.active, ∃ client, layer.client = some client

/-- A slot without a client waits for the hint that a request asks for. -/
def Awaits (layers : Layers) (request : LayerHintRequest) : Prop :=
  ∃ index slot layer drawing, layers.pending = some index ∧ layers.slots[index]? = some slot ∧
    slot.active? = some layer ∧ layer.client = none ∧
    request = ⟨(HintRequest.fresh layer.scheme drawing).1, layer.first, layer.count⟩

/-- The layer of one slot became ready, the one whose hint was waited for, and no layer ceased to be
ready. -/
structure Fills (before after : Layers) (index : Nat) : Prop where
  pending : before.pending = some index
  unready : ∃ slot, before.slots[index]? = some slot ∧ slot.isUnready = true
  fewer : after.unreadyCount < before.unreadyCount
  others : ∀ (other : Nat) (slot : Slot), after.slots[other]? = some slot →
    slot.isUnready = true → other ≠ index ∧ before.slots[other]? = some slot

variable {good : Client → Table → Prop} {layers : Layers} {table before after : Table}

theorem fits_nothing (slots : layers.slots = []) (total : layers.total = 0) (rowLength : Nat) :
    layers.Fits good (Table.empty rowLength) where
  tile := by
    rw [slots, total]
    exact .nil 0
  total := total
  rowLength := by
    intro filled
    rw [total] at filled
    exact absurd filled (Nat.lt_irrefl 0)

/-- A range of a table has no more rows than the table, so what is said of the clients may be
weakened for tables of so many rows. -/
theorem Fits.imp (fits : layers.Fits good table) {other : Client → Table → Prop}
    (implies : ∀ client range, range.rowCount ≤ table.rowCount → good client range →
      other client range) : layers.Fits other table where
  tile := by
    refine fits.tile.imp fun layer _ suits filled inside client isClient => ?_
    obtain ⟨range, given, isGood, scheme⟩ := suits client isClient
    obtain ⟨range', given', -, -, rowCount⟩ :=
      Table.exists_slice filled.le (inside.trans_eq fits.total)
    obtain rfl : range = range' := Except.ok.inj (given.symm.trans given')
    have fewer : range.rowCount ≤ table.rowCount := by
      rw [fits.total] at inside
      omega
    exact ⟨range, given, implies client range fewer isGood, scheme⟩
  total := fits.total
  rowLength := fits.rowLength

/-- Clients that serve their ranges do so if these have few rows. -/
theorem Fits.servesFew (fits : layers.Fits Client.Serves table) :
    layers.Fits Client.ServesFew table :=
  fits.imp fun _ _ _ serves _ => serves

/-- Of a table whose row numbers fit a word, no range has more rows. -/
theorem Fits.serves (fits : layers.Fits Client.ServesFew table)
    (few : table.rowCount ≤ 2 ^ 32) : layers.Fits Client.Serves table :=
  fits.imp fun _ _ fewer servesFew => servesFew (fewer.trans few)

/-- A layer in place suits its range of a table that continues the one it suited. -/
theorem suits_of_precedes (precedes : before.Precedes after) {layer : Layer}
    (suits : layer.Suits good before) (filled : layer.first < layer.last)
    (inside : layer.last ≤ before.rowCount) : layer.Suits good after := by
  intro client isClient
  obtain ⟨range, given, found⟩ := suits client isClient
  exact ⟨range, (precedes.slice filled inside).trans given, found⟩

/-- What is waited for does not matter to whether layers fit. -/
theorem Fits.of_pending (fits : layers.Fits good table) (pending : Option Nat) :
    Fits good { layers with pending } table :=
  ⟨fits.tile, fits.total, fits.rowLength⟩

/-- Layers that fit a table fit one that holds the same rows. -/
theorem Fits.of_precedes (fits : layers.Fits good before) (precedes : before.Precedes after)
    (same : before.rowCount = after.rowCount) : layers.Fits good after where
  tile := fits.tile.imp fun layer _ suits filled inside =>
    suits_of_precedes precedes suits filled (fits.total ▸ inside)
  total := fits.total.trans same
  rowLength := by
    intro filled
    rw [fits.rowLength filled, precedes.rowLength (fits.total ▸ filled)]

/-- Rows that continue a table are placed so that the layers fit. -/
theorem Fits.place (fits : layers.Fits good before) (precedes : before.Precedes after)
    {newRows : Nat} (filled : 0 < newRows) (more : before.rowCount + newRows = after.rowCount) :
    ∃ index placed,
      (layers.counting newRows after.rowLength).place newRows = (index, placed) ∧
      placed.Fits good after ∧
      ∃ slot layer, placed.slots[index]? = some slot ∧ slot.active? = some layer ∧
        layer.client = none := by
  have tile : Tile (Layer.Suits good after) 0 layers.slots layers.total :=
    fits.tile.imp fun layer _ suits filled inside =>
      suits_of_precedes precedes suits filled (fits.total ▸ inside)
  obtain ⟨index, slots, placed, tileAfter, made⟩ :=
    @place_spec (Layer.Suits good after) (layers.counting newRows after.rowLength) layers.total
      newRows tile rfl filled fun _ => Layer.suits_of_none
  refine ⟨index, _, placed, ⟨tileAfter, ?_, fun _ => rfl⟩, made⟩
  show layers.total + newRows = after.rowCount
  rw [fits.total, more]

/-! ## Clients -/

/-- A client that is put into a slot makes at most this slot ready. -/
theorem countP_install (slots : List Slot) (index : Nat) (client : Client) :
    (install slots index client).countP Slot.isUnready +
      (if (slots[index]?).any Slot.isUnready then 1 else 0) = slots.countP Slot.isUnready := by
  induction slots generalizing index with
  | nil =>
      rw [install, List.modify_nil]
      rfl
  | cons slot rest ih =>
      cases index with
      | zero =>
          rw [install, List.modify_zero_cons, List.countP_cons, List.countP_cons,
            Slot.isUnready_install, List.getElem?_cons_zero, Option.any_some]
          rfl
      | succ index =>
          rw [install, List.modify_succ_cons, List.countP_cons, List.countP_cons,
            List.getElem?_cons_succ, ← ih index, install]
          omega

/-- Slots that are not ready after a client was put into one of them were not ready before. -/
theorem unready_of_install {slots : List Slot} {index other : Nat} {client : Client} {slot : Slot}
    (held : (install slots index client)[other]? = some slot) (unready : slot.isUnready = true) :
    other ≠ index ∧ slots[other]? = some slot := by
  have isOther : other ≠ index := by
    rintro rfl
    obtain ⟨inside, -⟩ := List.getElem?_eq_some_iff.mp held
    rw [install, List.length_modify] at inside
    rw [getElem?_install_self (List.getElem?_eq_getElem inside), Option.some.injEq] at held
    rw [← held, Slot.isUnready_install] at unready
    cases unready
  rw [getElem?_install_of_ne isOther] at held
  exact ⟨isOther, held⟩

/-- Layers fit as before if a client that has the property of a layer's range is put into the
layer. -/
theorem Fits.install (fits : layers.Fits good table) {index : Nat} {slot : Slot}
    {layer : Layer} (held : layers.slots[index]? = some slot)
    (active : slot.active? = some layer) {client : Client} {range : Table}
    (given : table.slice layer.first layer.last = .ok range) (isGood : good client range)
    (scheme : client.scheme = layer.scheme) :
    Fits good { layers with slots := Layers.install layers.slots index client } table where
  tile := by
    apply fits.tile.install
    intro slot' layer' held' active' _
    obtain rfl : slot' = slot := Option.some.inj (held'.symm.trans held)
    obtain rfl : layer' = layer := Option.some.inj (active'.symm.trans active)
    intro other isOther
    cases isOther
    exact ⟨range, given, isGood, scheme⟩
  total := fits.total
  rowLength := fits.rowLength

/-- A layer in place has a range of the table. -/
theorem Fits.exists_range (fits : layers.Fits good table) {index : Nat} {slot : Slot}
    {layer : Layer} (held : layers.slots[index]? = some slot)
    (active : slot.active? = some layer) :
    ∃ range, table.slice layer.first layer.last = .ok range ∧
      range.shape = ⟨layer.count, layers.rowLength⟩ := by
  obtain ⟨-, filled⟩ := Slot.of_active? active
  obtain ⟨-, -, inside⟩ := fits.tile.of_active? held active
  obtain ⟨range, given, rowLength, -, rowCount⟩ :=
    Table.exists_slice (Nat.le_add_right layer.first layer.count) (fits.total ▸ inside)
  refine ⟨range, given, ?_⟩
  have positive : 0 < layers.total := by
    rw [Layer.last] at inside
    omega
  rw [Table.shape, rowCount, rowLength, fits.rowLength positive, Nat.add_sub_cancel_left]

section Steps

variable (isNew : Client.HoldsOfNew good)
include isNew

/-- A layer that needs no hint is made ready, and otherwise its hint is asked for. -/
theorem Fits.requestHint (fits : layers.Fits good table) {index : Nat} {slot : Slot}
    {layer : Layer} (held : layers.slots[index]? = some slot)
    (active : slot.active? = some layer) (lacks : layer.client = none) (tape : Tape) :
    (∃ client, layers.requestHint index tape =
        (none, { layers with slots := Layers.install layers.slots index client }, tape) ∧
      Fits good { layers with slots := Layers.install layers.slots index client } table) ∨
      ∃ request later, layers.requestHint index tape =
          (some request, { layers with pending := some index }, later) ∧
        Awaits { layers with pending := some index } request := by
  obtain ⟨range, given, shape⟩ := fits.exists_range held active
  rw [Layers.requestHint, held, Option.bind_some, active]
  dsimp only
  cases made : Client.withoutHint layer.scheme ⟨layer.count, layers.rowLength⟩ with
  | ok client =>
      rw [← shape] at made
      have scheme := (Client.serves_withoutHint made).2
      exact Or.inl ⟨client, rfl, fits.install held active given (isNew.withoutHint made) scheme⟩
  | error failure =>
      exact Or.inr ⟨_, _, rfl, index, slot, layer, tape, rfl, held, active, lacks, rfl⟩

/-- An update places rows that continue the table, and its layers fit whether or not it asks for a
hint. -/
theorem Fits.update (fits : layers.Fits good before) (precedes : before.Precedes after)
    {newRows : Nat} (filled : 0 < newRows) (more : before.rowCount + newRows = after.rowCount)
    (tape : Tape) :
    ∃ request updated later,
      layers.update newRows after.rowLength tape = (request, updated, later) ∧
      updated.Fits good after ∧ ∀ asked, request = some asked → updated.Awaits asked := by
  obtain ⟨index, placed, isPlaced, fitsPlaced, slot, layer, held, active, lacks⟩ :=
    fits.place precedes filled more
  rw [update_eq, isPlaced]
  rcases fitsPlaced.requestHint isNew held active lacks tape with
    ⟨client, made, fitsMade⟩ | ⟨request, later, asks, awaits⟩
  · exact ⟨none, _, tape, made, fitsMade, fun _ isRequest => nomatch isRequest⟩
  · exact ⟨some request, _, later, asks, fitsPlaced.of_pending _,
      fun _ isRequest => Option.some.inj isRequest ▸ awaits⟩

/-- Missing hints are asked for one at a time, and layers that need none are made ready
meanwhile. -/
theorem Fits.requestFirst (fits : layers.Fits good table) (indices : List Nat) (tape : Tape) :
    (∃ after later, Layers.requestFirst indices layers tape = (none, after, later) ∧
        after.Fits good table ∧ ∀ index slot, after.slots[index]? = some slot →
          slot.isUnready = true → index ∉ indices ∧ layers.slots[index]? = some slot) ∨
      ∃ request after later, Layers.requestFirst indices layers tape =
          (some request, after, later) ∧
        after.Fits good table ∧ after.Awaits request ∧
        after.unreadyCount ≤ layers.unreadyCount ∧
        ∀ (index : Nat) (slot : Slot), after.slots[index]? = some slot →
          slot.isUnready = true → layers.slots[index]? = some slot := by
  induction indices generalizing layers with
  | nil =>
      refine Or.inl ⟨layers, tape, rfl, fits, ?_⟩
      intro index slot held _
      exact ⟨List.not_mem_nil, held⟩
  | cons first rest ih =>
      rw [Layers.requestFirst]
      split
      · rename_i lacks
        obtain ⟨slot, held, unready⟩ : ∃ slot, layers.slots[first]? = some slot ∧
            slot.isUnready = true := (Option.any_eq_true _ _).mp lacks
        obtain ⟨layer, active, noClient⟩ := Slot.isUnready_iff.mp unready
        rcases fits.requestHint isNew held active noClient tape with
          ⟨client, made, fitsMade⟩ | ⟨request, later, asked, awaits⟩
        · have count := countP_install layers.slots first client
          rw [made]
          rcases ih fitsMade with ⟨after, later, none, fitsAfter, isUnready⟩ |
            ⟨request, after, later, asked, fitsAfter, awaits, fewer, isUnready⟩
          · refine Or.inl ⟨after, later, none, fitsAfter, ?_⟩
            intro index other held unready
            obtain ⟨notIn, before⟩ := isUnready index other held unready
            obtain ⟨notFirst, before⟩ := unready_of_install before unready
            exact ⟨List.not_mem_cons_of_ne_of_not_mem notFirst notIn, before⟩
          · refine Or.inr ⟨request, after, later, asked, fitsAfter, awaits, fewer.trans ?_, ?_⟩
            · rw [unreadyCount, unreadyCount, ← count]
              exact Nat.le_add_right _ _
            · intro index other held unready
              exact (unready_of_install (isUnready index other held unready) unready).2
        · rw [asked]
          exact Or.inr ⟨request, _, later, rfl, fits.of_pending _, awaits, Nat.le_refl _,
            fun _ _ held _ => held⟩
      · rename_i lacksNot
        rcases ih fits with ⟨after, later, none, fitsAfter, unready⟩ | asked
        · refine Or.inl ⟨after, later, none, fitsAfter, ?_⟩
          intro index slot held isUnready
          obtain ⟨notIn, before⟩ := unready index slot held isUnready
          refine ⟨List.not_mem_cons_of_ne_of_not_mem ?_ notIn, before⟩
          rintro rfl
          exact lacksNot ((Option.any_eq_true _ _).mpr ⟨slot, before, isUnready⟩)
        · exact Or.inr asked

/-- Either all layers are ready, or a hint is asked for. -/
theorem Fits.missing (fits : layers.Fits good table) (tape : Tape) :
    (∃ after later, layers.missing tape = (none, after, later) ∧ after.Fits good table ∧
        after.Ready) ∨
      ∃ request after later, layers.missing tape = (some request, after, later) ∧
        after.Fits good table ∧ after.Awaits request ∧
        after.unreadyCount ≤ layers.unreadyCount ∧
        ∀ (index : Nat) (slot : Slot), after.slots[index]? = some slot →
          slot.isUnready = true → layers.slots[index]? = some slot := by
  rcases (fits.of_pending none).requestFirst isNew (List.range layers.slots.length) tape with
    ⟨after, later, isNone, fitsAfter, unready⟩ | asked
  · refine Or.inl ⟨after, later, isNone, fitsAfter, ?_⟩
    intro layer member
    obtain ⟨index, slot, held, active⟩ := exists_slot_of_mem_active member
    by_contra lacks
    have noClient : layer.client = none :=
      Option.eq_none_iff_forall_ne_some.mpr fun client is => lacks ⟨client, is⟩
    obtain ⟨notIn, before⟩ :=
      unready index slot held (Slot.isUnready_iff.mpr ⟨layer, active, noClient⟩)
    obtain ⟨inside, -⟩ := List.getElem?_eq_some_iff.mp before
    exact notIn (List.mem_range.mpr inside)
  · exact Or.inr asked

/-- An honest hint that is waited for makes a layer ready. -/
theorem Fits.installHint (fits : layers.Fits good table) {request : LayerHintRequest}
    (awaits : layers.Awaits request) {hint : Hint}
    (isHint : table.layerHint request = .ok hint) (tape : Tape) :
    ∃ after later, layers.installHint hint tape = (.ok (), after, later) ∧
      after.Fits good table ∧ ∃ index, layers.Fills after index := by
  obtain ⟨index, slot, layer, drawing, pending, held, active, lacks, rfl⟩ := awaits
  obtain ⟨range, given, shape⟩ := fits.exists_range held active
  obtain ⟨isLayer, -⟩ := Slot.of_active? active
  -- The server took the hint from the layer's range.
  have isHint : range.hint (HintRequest.fresh layer.scheme drawing).1 = .ok hint := by
    rw [Table.layerHint] at isHint
    split at isHint
    · cases isHint
    · have given : table.slice layer.first (layer.first + layer.count) = .ok range := given
      simp only [given, bind, Except.bind] at isHint
      exact isHint
  obtain ⟨hintShape, client, later, made⟩ := Client.exists_ofHint isHint tape
  have covers : hint.shape.rowCount = layer.count := by
    rw [hintShape, shape]
  have unready : slot.isUnready = true := Slot.isUnready_iff.mpr ⟨layer, active, lacks⟩
  have fitsInstalled := fits.install held active given (isNew.ofHint isHint made)
    (Client.scheme_ofHint isHint made)
  refine ⟨_, later, ?_, fitsInstalled.of_pending none, index, pending, ⟨slot, held, unready⟩, ?_,
    ?_⟩
  · rw [Layers.installHint, pending]
    simp only [held, Option.bind_some, isLayer, covers, made, ne_eq, not_true_eq_false, if_false]
  · have count := countP_install layers.slots index client
    rw [held, Option.any_some, if_pos unready] at count
    rw [unreadyCount, unreadyCount, ← count]
    exact Nat.lt_succ_self _
  · intro other stillUnready heldAfter isUnready
    exact unready_of_install heldAfter isUnready

end Steps

end Layers

end PrivateRetrieval
