/-
# Layers that wait for their hints

Only layers that are read with punctured sets need hints, so only these can be without a client. An
update keeps this, since a layer that it makes anew has a client at once if it needs no hint. So
when no hint is missing all layers are ready.

A query asks a layer only if it has a client, and gives it no other one. What was waited for before
a query is waited for afterwards.
-/

import PrivateRetrieval.Proofs.Layers.Readiness
import PrivateRetrieval.Proofs.Layers.Updating

namespace PrivateRetrieval

theorem Slot.isUnready_of_active? {slot : Slot} {layer : Layer}
    (active : slot.active? = some layer) : slot.isUnready = layer.client.isNone := by
  rw [isUnready, active]

namespace Layers

variable {layers : Layers} {slots : List Slot}

/-- What is missing in some slots are hints: a layer that has rows and no client is read with
punctured sets. -/
def MissHintsOnly (slots : List Slot) : Prop :=
  ∀ (index : Nat) (slot : Slot) (layer : Layer), slots[index]? = some slot →
    slot.active? = some layer → layer.client = none → layer.scheme = .puncturedSets

/-- Slots miss hints only if each one that is not ready is an earlier one. -/
theorem MissHintsOnly.of_unready {after : List Slot} (missHints : MissHintsOnly slots)
    (earlier : ∀ (index : Nat) (slot : Slot), after[index]? = some slot → slot.isUnready = true →
      slots[index]? = some slot) : MissHintsOnly after := by
  intro index slot layer held active lacks
  have before := earlier index slot held (Slot.isUnready_iff.mpr ⟨layer, active, lacks⟩)
  exact missHints index slot layer before active lacks

theorem MissHintsOnly.update (missHints : MissHintsOnly layers.slots) (newRows rowLength : Nat)
    (tape : Tape) : MissHintsOnly (layers.update newRows rowLength tape).2.1.slots := by
  obtain ⟨index, first, count, anew, larger⟩ :=
    layers.exists_madeAnew newRows rowLength tape
  intro place slot layer held active lacks
  obtain ⟨isLayer, filled⟩ := Slot.of_active? active
  rcases lt_trichotomy place index with before | rfl | beyond
  · rw [larger place before] at held
    exact missHints place slot layer held active lacks
  · obtain ⟨made, madeLayer, isMade, isMadeLayer, -, -, prepares⟩ := anew.made
    obtain rfl : made = slot := Option.some.inj (isMade.symm.trans held)
    obtain rfl : madeLayer = layer := Option.some.inj (isMadeLayer.symm.trans isLayer)
    by_contra other
    obtain ⟨client, isClient, -⟩ := prepares.ready other filled
    rw [lacks] at isClient
    cases isClient
  · have noLayer := anew.emptied place slot beyond held
    rw [isLayer] at noLayer
    cases noLayer

theorem Ready.client_ne_none (ready : layers.Ready) {index : Nat} {slot : Slot} {layer : Layer}
    (held : layers.slots[index]? = some slot) (active : slot.active? = some layer) :
    layer.client ≠ none := by
  obtain ⟨client, isClient⟩ :=
    ready layer (List.mem_filterMap.mpr ⟨slot, List.mem_of_getElem? held, active⟩)
  rw [isClient]
  exact Option.some_ne_none client

theorem ready_of_slots (allReady : ∀ slot ∈ layers.slots, slot.isUnready = false) :
    layers.Ready := by
  intro layer member
  obtain ⟨slot, inSlots, active⟩ := List.mem_filterMap.mp member
  have ready := allReady slot inSlots
  rw [Slot.isUnready_of_active? active] at ready
  exact Option.isSome_iff_exists.mp (Option.isNone_eq_false_iff.mp ready)

/-- Layers that are all ready miss nothing. -/
theorem Ready.missHintsOnly (ready : layers.Ready) : MissHintsOnly layers.slots :=
  fun _ _ _ held active lacks => absurd lacks (ready.client_ne_none held active)

theorem Awaits.not_ready {request : LayerHintRequest} (awaits : layers.Awaits request) :
    ¬ layers.Ready := by
  obtain ⟨index, slot, layer, drawing, -, held, active, lacks, -⟩ := awaits
  exact fun ready => ready.client_ne_none held active lacks

/-- As long as hints are missing, one of them is asked for. -/
theorem ready_of_requestFirst {indices : List Nat} (missHints : MissHintsOnly layers.slots)
    {tape : Tape} (nothing : (requestFirst indices layers tape).1 = none) :
    ∀ index ∈ indices, ∀ slot, layers.slots[index]? = some slot → slot.isUnready = false := by
  induction indices with
  | nil => exact fun index member => absurd member List.not_mem_nil
  | cons first rest ih =>
      have firstReady : (layers.slots[first]?).any Slot.isUnready = false := by
        by_contra lacks
        rw [Bool.not_eq_false] at lacks
        obtain ⟨slot, held, unready⟩ : ∃ slot, layers.slots[first]? = some slot ∧
            slot.isUnready = true := (Option.any_eq_true _ _).mp lacks
        obtain ⟨layer, active, noClient⟩ := Slot.isUnready_iff.mp unready
        obtain ⟨isLayer, filled⟩ := Slot.of_active? active
        have punctured := missHints first slot layer held active noClient
        obtain ⟨client, -, prepares, -⟩ := requestHint_prepares held isLayer tape
        have asks := prepares.asks.mpr ⟨punctured, filled⟩
        rw [requestFirst, if_pos lacks] at nothing
        rcases request : layers.requestHint first tape with ⟨_ | asked, after, later⟩
        · rw [request] at asks
          cases asks
        · rw [request] at nothing
          cases nothing
      rw [requestFirst, if_neg (ne_true_of_eq_false firstReady)] at nothing
      intro index member slot held
      rcases List.mem_cons.mp member with rfl | member
      · rwa [held, Option.any_some] at firstReady
      · exact ih nothing index member slot held

/-- If hints are all that can be missing and none is, all layers are ready. -/
theorem ready_of_missing (missHints : MissHintsOnly layers.slots) {tape : Tape}
    (nothing : (layers.missing tape).1 = none) : layers.Ready := by
  apply ready_of_slots
  intro slot member
  obtain ⟨index, held⟩ := List.mem_iff_getElem?.mp member
  obtain ⟨inside, -⟩ := List.getElem?_eq_some_iff.mp held
  let idle : Layers := { layers with pending := none }
  have missHintsIdle : MissHintsOnly idle.slots := missHints
  exact ready_of_requestFirst missHintsIdle nothing index (List.mem_range.mpr inside) slot held

/-! ## Queries -/

/-- A layer is asked only if it has a client, and has one afterwards. -/
theorem askLayer_client (row : Nat) (layer : Layer) (tape : Tape) :
    layer.client = none ∧ askLayer row layer tape = (.error .noHint, layer, tape) ∨
      (∃ client, layer.client = some client) ∧
        ∃ client, (askLayer row layer tape).2.1 = { layer with client := some client } := by
  rw [askLayer]
  split
  · rename_i lacks
    exact Or.inl ⟨lacks, rfl⟩
  · rename_i client isClient
    refine Or.inr ⟨⟨client, isClient⟩, ?_⟩
    dsimp only
    split
    · exact ⟨_, rfl⟩
    · exact ⟨_, rfl⟩

/-- A query neither makes a slot ready nor touches one that is not. -/
theorem getElem?_askSlots {slot : Slot} (unready : slot.isUnready = true) (row : Nat)
    (slots : List Slot) (tape : Tape) (index : Nat) :
    (askSlots row slots tape).2.1[index]? = some slot ↔ slots[index]? = some slot := by
  induction slots generalizing tape index with
  | nil => exact Iff.rfl
  | cons first rest ih =>
      rw [askSlots]
      split
      · cases index with
        | zero => exact Iff.rfl
        | succ index => exact ih tape index
      · rename_i layer active
        obtain ⟨isLayer, filled⟩ := Slot.of_active? active
        rcases askLayer_client row layer tape with
          ⟨lacks, refused⟩ | ⟨⟨client, isClient⟩, other, isAfter⟩
        · rw [refused]
          dsimp only
          rw [← isLayer]
        · -- The slot is ready before and after, so it is not the one in question.
          have readyBefore : first ≠ slot := by
            rintro rfl
            rw [Slot.isUnready_of_active? active, isClient] at unready
            cases unready
          have readyAfter :
              { first with layer := some { layer with client := some other } } ≠ slot := by
            have activeAfter : Slot.active?
                { first with layer := some { layer with client := some other } } = _ :=
              Slot.active?_of_layer first.capacity filled
            rintro rfl
            rw [Slot.isUnready_of_active? activeAfter] at unready
            cases unready
          have skips : ∀ others : List Slot,
              (∀ place : Nat, others[place]? = some slot ↔ rest[place]? = some slot) →
              (({ first with layer := some { layer with client := some other } } ::
                others)[index]? = some slot ↔ (first :: rest)[index]? = some slot) := by
            intro others same
            cases index with
            | zero =>
                exact iff_of_false (fun held => readyAfter (Option.some.inj held))
                  fun held => readyBefore (Option.some.inj held)
            | succ index => exact same index
          rcases asked : askLayer row layer tape with ⟨_ | part, after, later⟩
          · rw [asked] at isAfter
            cases isAfter
            exact skips rest fun _ => Iff.rfl
          · rw [asked] at isAfter
            cases isAfter
            exact skips _ (ih later)

theorem MissHintsOnly.query (missHints : MissHintsOnly layers.slots) (row : Nat) (tape : Tape) :
    MissHintsOnly (layers.query row tape).2.1.slots := by
  apply missHints.of_unready
  intro index slot held unready
  exact (getElem?_askSlots unready row layers.slots tape index).mp held

theorem Awaits.query {request : LayerHintRequest} (awaits : layers.Awaits request) (row : Nat)
    (tape : Tape) : (layers.query row tape).2.1.Awaits request := by
  obtain ⟨index, slot, layer, drawing, pending, held, active, lacks, isRequest⟩ := awaits
  have unready : slot.isUnready = true := Slot.isUnready_iff.mpr ⟨layer, active, lacks⟩
  exact ⟨index, slot, layer, drawing, pending,
    (getElem?_askSlots unready row layers.slots tape index).mpr held, active, lacks, isRequest⟩

/-- A query leaves layers ready that were ready. -/
theorem Ready.query (ready : layers.Ready) (row : Nat) (tape : Tape) :
    (layers.query row tape).2.1.Ready := by
  apply ready_of_slots
  intro slot member
  by_contra lacks
  rw [Bool.not_eq_false] at lacks
  obtain ⟨index, held⟩ := List.mem_iff_getElem?.mp member
  obtain ⟨layer, active, noClient⟩ := Slot.isUnready_iff.mp lacks
  have before := (getElem?_askSlots lacks row layers.slots tape index).mp held
  exact ready.client_ne_none before active noClient

/-- All layers that a round asked were ready. -/
theorem ready_of_askSlots {row : Nat} {tape later : Tape} {parts : List (Option LayerPart)}
    {after : List Slot} (asked : askSlots row slots tape = (.ok parts, after, later)) :
    ∀ slot ∈ slots, slot.isUnready = false := by
  induction slots generalizing tape later parts after with
  | nil => exact fun slot member => absurd member List.not_mem_nil
  | cons first rest ih =>
      rw [askSlots] at asked
      split at asked
      · rename_i inactive
        rcases others : askSlots row rest tape with ⟨failure | parts, next, last⟩
        · rw [others] at asked
          cases asked
        · refine List.forall_mem_cons.mpr ⟨?_, ih others⟩
          rw [Slot.isUnready, inactive]
      · rename_i layer active
        rcases askLayer_client row layer tape with ⟨-, refused⟩ | ⟨⟨client, isClient⟩, -⟩
        · rw [refused] at asked
          cases asked
        · rcases isPart : askLayer row layer tape with ⟨failure | part, asking, between⟩
          · rw [isPart] at asked
            cases asked
          · rcases others : askSlots row rest between with ⟨failure | parts, next, last⟩
            · simp only [isPart, others] at asked
              cases asked
            · refine List.forall_mem_cons.mpr ⟨?_, ih others⟩
              rw [Slot.isUnready_of_active? active, isClient]
              rfl

/-- A query that succeeds has asked layers that are all ready. -/
theorem ready_of_query {row : Nat} {tape later : Tape} {after : Layers}
    {queries : Sides LayeredQuery} {pending : PendingLayer}
    (made : layers.query row tape = (.ok (queries, pending), after, later)) : layers.Ready := by
  obtain ⟨parts, slots, asked, -⟩ := of_query made
  exact ready_of_slots (ready_of_askSlots asked)

end Layers

end PrivateRetrieval
