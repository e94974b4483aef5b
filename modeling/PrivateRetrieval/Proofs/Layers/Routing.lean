/-
# Routing a read to its layer

Two replicas hold a table that grows at its end only. A client places rows of it in layers, gets the
hints that it asks for, and reads in between, with or without waiting for the answers. Whatever it
did, a query for a row that it knows asks every layer that has rows, in order. The replicas cut the
range of each layer out of their tables, and the answer for the range with the row gives the row
back.

Slots and answers are numbered differently, since slots without rows are not asked. A query
remembers both numbers of the layer that has the row. So the answer that is looked at is the one for
its range, and the client that looks at it is its own. No other layer is touched then.

The invariant is that the layers fit the rows that were placed, which the table continues, that only
hints are missing, and that what was asked for last is what a slot waits for.
-/

import PrivateRetrieval.Proofs.Layers.Reading
import PrivateRetrieval.Proofs.Layers.Waiting

namespace PrivateRetrieval

/-- Servers whose tables grew give the same hint of a range. -/
theorem Table.Precedes.layerHint {before table : Table} (precedes : before.Precedes table)
    (request : LayerHintRequest) (filled : 0 < request.count)
    (inside : request.first + request.count ≤ before.rowCount) :
    table.layerHint request = before.layerHint request := by
  rw [Table.layerHint, Table.layerHint,
    precedes.slice (Nat.lt_add_of_pos_right filled) inside]

theorem Layer.holds_eq_false {layer : Layer} {row : Nat} (below : layer.last ≤ row) :
    layer.holds row = false := by
  rw [holds, decide_eq_false (Nat.not_lt.mpr below), Bool.and_false]

namespace Layers

variable {table : Table} {layers : Layers} {row : Nat}

/-! ## Queries to layers that may lack clients -/

/-- A round keeps what is known of the clients, also if it ends at a layer without one. -/
theorem tile_askSlots {slots : List Slot} {first last : Nat}
    (tile : Tile (fun layer => layer.Suits Client.Serves table ∧ layer.HasNumbersLeft) first slots
      last)
    (row : Nat) (tape : Tape) :
    Tile (Layer.Suits Client.Serves table) first (askSlots row slots tape).2.1 last := by
  induction tile generalizing tape with
  | nil first => exact .nil first
  | vacant inactive _ ih =>
      rw [askSlots, inactive]
      exact .vacant inactive (ih tape)
  | @layer slot slots layer first last active isFirst good rest ih =>
      obtain ⟨serves, left⟩ := good
      obtain ⟨isLayer, filled⟩ := Slot.of_active? active
      have plain : Tile (Layer.Suits Client.Serves table) layer.last slots last :=
        rest.imp fun _ _ good _ _ => good.1
      rw [askSlots, active]
      dsimp only
      cases isClient : layer.client with
      | none =>
          have refused : askLayer row layer tape = (.error .noHint, layer, tape) := by
            rw [askLayer, isClient]
          rw [refused]
          exact .layer (Slot.active?_of_layer slot.capacity filled) isFirst serves plain
      | some client =>
          obtain ⟨range, found⟩ := serves client isClient
          rcases askLayer_cases ⟨client, range, isClient, found⟩ left filled row tape with
            ⟨part, after, later, answers, asks, -, asked⟩ | ⟨failure, after, refused, ready, -⟩
          · rw [asks]
            exact .layer (Slot.active?_of_layer slot.capacity filled) isFirst asked.readyFor.suits
              (ih later)
          · rw [refused]
            exact .layer (Slot.active?_of_layer slot.capacity filled) isFirst ready.suits plain

theorem Fits.query (fits : layers.Fits Client.Serves table) (left : layers.HasNumbersLeft)
    (row : Nat) (tape : Tape) : (layers.query row tape).2.1.Fits Client.Serves table where
  tile := tile_askSlots
    (fits.tile.imp fun layer member serves _ _ => ⟨serves, left layer member⟩) row tape
  total := fits.total
  rowLength := fits.rowLength

/-! ## Rounds -/

/-- What is remembered names the layer that has the row, by its slot and by its place among the
layers that have rows. -/
def Names (layers : Layers) (row : Nat) (pending : PendingLayer) : Prop :=
  ∃ slot layer, layers.slots[pending.slot]? = some slot ∧ slot.active? = some layer ∧
    layers.active[pending.place]? = some layer ∧ layer.holds row = true

/-- A server cuts the ranges of the layers that have rows out of its table, one for each query in
order. -/
structure Cuts (layers : Layers) (rows : List Row) (server : Table) (layered : LayeredQuery) :
    Prop where
  queries : layered.queries.length = layers.active.length
  boundaries : layered.boundaries.length = layers.active.length + 1
  ranges : ∀ (place : Nat) (layer : Layer), layers.active[place]? = some layer →
    ∃ first last range, layered.boundaries[place]? = some first ∧
      layered.boundaries[place + 1]? = some last ∧ server.slice first last = .ok range ∧
      range.rows.toList = (rows.drop layer.first).take layer.count

/-- Without rows nothing is asked. -/
theorem askSlots_of_inactive {slots : List Slot} (inactive : slots.filterMap Slot.active? = [])
    (row : Nat) (tape : Tape) :
    askSlots row slots tape = (.ok (slots.map fun _ => none), slots, tape) := by
  induction slots with
  | nil => rfl
  | cons slot rest ih =>
      rw [List.filterMap_eq_nil_iff, List.forall_mem_cons, ← List.filterMap_eq_nil_iff] at inactive
      rw [askSlots, inactive.1, ih inactive.2]
      rfl

theorem query_of_inactive (inactive : layers.active = []) (row : Nat) (tape : Tape) :
    (layers.query row tape).1 = .error .noActiveLayers := by
  have nothing : (layers.slots.map fun _ => (none : Option LayerPart)).filterMap id = [] := by
    rw [List.filterMap_map, List.filterMap_eq_nil_iff]
    exact fun _ _ => rfl
  rw [query, askSlots_of_inactive inactive]
  simp only [bind, Except.bind, nothing, List.isEmpty_nil, if_true]
  rfl

namespace AskedSlots

variable {slots : List Slot} {parts : List (Option LayerPart)} {answers : List (Sides Answer)}
  {first last : Nat}

theorem length_parts (asked : AskedSlots table row first slots parts answers last) :
    (parts.filterMap id).length = (slots.filterMap Slot.active?).length := by
  induction asked with
  | nil first => rfl
  | vacant inactive _ ih =>
      rw [List.filterMap_cons_none inactive]
      exact ih
  | layer active _ _ _ ih =>
      rw [List.filterMap_cons_some active]
      exact congrArg Nat.succ ih

/-- If there are rows, some layer was asked. -/
theorem ne_nil (asked : AskedSlots table row first slots parts answers last)
    (filled : first < last) : parts.filterMap id ≠ [] := by
  induction asked with
  | nil first => exact absurd filled (Nat.lt_irrefl first)
  | vacant inactive _ ih => exact ih filled
  | layer active _ _ _ _ => exact List.cons_ne_nil _ _

/-- A layer that was asked lies between the boundaries at its place and the next one. -/
theorem boundary (asked : AskedSlots table row first slots parts answers last) {place : Nat}
    {layer : Layer} (held : (slots.filterMap Slot.active?)[place]? = some layer) :
    (first :: (parts.filterMap id).map LayerPart.last)[place]? = some layer.first ∧
      (first :: (parts.filterMap id).map LayerPart.last)[place + 1]? = some layer.last := by
  induction asked generalizing place with
  | nil first => cases held
  | vacant inactive _ ih =>
      rw [List.filterMap_cons_none inactive] at held
      exact ih held
  | @layer slot slots other part parts reply answers first last active isFirst asked rest ih =>
      rw [List.filterMap_cons_some active] at held
      have kept : (some part :: parts).filterMap id = part :: parts.filterMap id := rfl
      rw [kept, List.map_cons, asked.last]
      cases place with
      | zero =>
          cases held
          exact ⟨congrArg some isFirst.symm, rfl⟩
      | succ place => exact ih held

/-- Nothing is remembered of a row beyond the layers. -/
theorem pendingOf_eq_none (asked : AskedSlots table row first slots parts answers last)
    (beyond : last ≤ row) : Layers.pendingOf parts = none := by
  induction asked with
  | nil first => rfl
  | vacant inactive _ ih => rw [pendingOf_none, ih beyond, Option.map_none]
  | @layer slot slots layer part parts reply answers first last active isFirst asked rest ih =>
      have below : layer.last ≤ row := rest.tile.le.trans beyond
      have notMeant : part.pending = none := by
        rw [← Option.not_isSome_iff_eq_none, asked.meant, Layer.holds_eq_false below]
        exact Bool.false_ne_true
      rw [pendingOf_other notMeant, ih beyond, Option.map_none]

/-- Servers whose tables continue the one that the layers know cut the ranges of the layers out. -/
theorem cuts {known server : Table}
    (asked : AskedSlots known row 0 layers.slots parts answers layers.total)
    (filled : 0 < layers.total) (total : layers.total = known.rowCount)
    (precedes : known.Precedes table) (precedesServer : table.Precedes server)
    (side : Sides Query → Query) :
    layers.Cuts table.rows.toList server (layeredQuery (parts.filterMap id) side) where
  queries := (List.length_map _).trans asked.length_parts
  boundaries := by
    rw [layeredQuery, asked.boundaries (asked.ne_nil filled), List.length_cons, List.length_map,
      asked.length_parts, active]
  ranges := by
    intro place layer held
    obtain ⟨isFirst, isLast⟩ := asked.boundary held
    obtain ⟨index, slot, isSlot, isActive⟩ :=
      exists_slot_of_mem_active (List.mem_of_getElem? held)
    obtain ⟨-, positive⟩ := Slot.of_active? isActive
    obtain ⟨-, -, inside⟩ := asked.tile.of_active? isSlot isActive
    have inTable : layer.last ≤ table.rowCount :=
      (inside.trans total.le).trans precedes.rowCount_le
    have ordered : layer.first < layer.last := Nat.lt_add_of_pos_right positive
    obtain ⟨range, given, -, rows, -⟩ := Table.exists_slice ordered.le inTable
    refine ⟨layer.first, layer.last, range, ?_, ?_,
      (precedesServer.slice ordered inTable).trans given, ?_⟩
    · rw [layeredQuery, asked.boundaries (asked.ne_nil filled), isFirst]
    · rw [layeredQuery, asked.boundaries (asked.ne_nil filled), isLast]
    · rw [rows, Array.toList_extract, List.extract_eq_take_drop, Layer.last,
        Nat.add_sub_cancel_left]

end AskedSlots

namespace ReadyFor

variable {known : Table}

/-- Rows beyond the layers are refused, after all layers were asked for nothing in particular. -/
theorem query_beyond (ready : layers.ReadyFor known) (left : layers.HasNumbersLeft)
    (filled : 0 < layers.total) (beyond : layers.total ≤ row) (tape : Tape) :
    (layers.query row tape).1 = .error (.indexOutOfBounds row layers.total) ∨
      (layers.query row tape).1 = .error .exhausted ∧ ¬ tape.Fair := by
  rw [query]
  rcases askSlots_cases (ready.tile_hasNumbersLeft left) row tape with
    ⟨parts, after, later, answers, asks, -, asked⟩ | ⟨failure, after, later, refused, -, why⟩
  · have notEmpty : ¬ (parts.filterMap id).isEmpty = true := by
      rw [List.isEmpty_iff]
      exact asked.ne_nil filled
    rw [asks]
    simp only [bind, Except.bind, if_neg notEmpty, asked.pendingOf_eq_none beyond]
    exact Or.inl rfl
  · rw [refused]
    rcases why with ⟨layer, member, -, holds, -⟩ | ⟨rfl, unfair⟩
    · obtain ⟨index, slot, held, active⟩ := exists_slot_of_mem_active member
      obtain ⟨-, -, inside⟩ := ready.tile.of_active? held active
      rw [Layer.holds_eq_false (inside.trans beyond)] at holds
      cases holds
    · exact Or.inr ⟨rfl, unfair⟩

theorem ready (ready : layers.ReadyFor known) : layers.Ready := by
  intro layer member
  obtain ⟨index, slot, held, active⟩ := exists_slot_of_mem_active member
  obtain ⟨⟨client, range, isClient, -⟩, -⟩ := ready.tile.of_active? held active
  exact ⟨client, isClient⟩

theorem active_eq_nil (ready : layers.ReadyFor known) (nothing : layers.total = 0) :
    layers.active = [] := by
  rw [List.eq_nil_iff_forall_not_mem]
  intro layer member
  obtain ⟨index, slot, held, active⟩ := exists_slot_of_mem_active member
  obtain ⟨-, filled⟩ := Slot.of_active? active
  obtain ⟨-, -, inside⟩ := ready.tile.of_active? held active
  rw [nothing, Layer.last] at inside
  omega

/-- Only rows that the layers have are asked for. -/
theorem lt_total_of_query (ready : layers.ReadyFor known) (left : layers.HasNumbersLeft)
    {tape later : Tape} {queries : Sides LayeredQuery} {pending : PendingLayer} {after : Layers}
    (made : layers.query row tape = (.ok (queries, pending), after, later)) :
    row < layers.total := by
  by_contra beyond
  rcases Nat.eq_zero_or_pos layers.total with nothing | filled
  · have refused := query_of_inactive (ready.active_eq_nil nothing) row tape
    rw [made] at refused
    cases refused
  · rcases ready.query_beyond left filled (Nat.not_lt.mp beyond) tape with refused | ⟨refused, -⟩
    · rw [made] at refused
      cases refused
    · rw [made] at refused
      cases refused

/-- What is remembered of a query names the layer that has the row, and the queries cut the ranges
of all layers out of tables that continue the one that the layers know. -/
theorem names_and_cuts (ready : layers.ReadyFor known) (left : layers.HasNumbersLeft)
    {tape later : Tape} {queries : Sides LayeredQuery} {pending : PendingLayer} {after : Layers}
    (made : layers.query row tape = (.ok (queries, pending), after, later))
    (precedes : known.Precedes table) :
    after.Names row pending ∧ ∀ server : Table, table.Precedes server →
      after.Cuts table.rows.toList server queries.left ∧
        after.Cuts table.rows.toList server queries.right := by
  have inside := ready.lt_total_of_query left made
  obtain ⟨parts, slots, asks, isAfter, isPending, rfl⟩ := of_query made
  rcases askSlots_cases (ready.tile_hasNumbersLeft left) row tape with
    ⟨parts', slots', later', answers, asks', -, asked⟩ | ⟨failure, slots', later', refused, -⟩
  · cases asks.symm.trans asks'
    have sameTotal : after.total = layers.total := by rw [isAfter]
    have asked : AskedSlots known row 0 after.slots parts answers after.total := by
      rw [isAfter]
      exact asked
    rw [← sameTotal] at inside
    refine ⟨?_, fun server precedesServer => ?_⟩
    · obtain ⟨pending', slot, layer, part, reply, isPending', held, active, isPlace, -, -, holds,
        -⟩ := asked.pendingOf (Nat.zero_le row) inside
      cases isPending.symm.trans isPending'
      exact ⟨slot, layer, held, active, isPlace, holds⟩
    · have cuts := asked.cuts (Nat.zero_lt_of_lt inside) (sameTotal.trans ready.total) precedes
        precedesServer
      exact ⟨cuts Sides.left, cuts Sides.right⟩
  · rw [asks] at refused
    cases refused

end ReadyFor

/-! ## Layers in use -/

/-- Layers in use over a table that both replicas hold, and the request for a hint that was made
last. Rows of the table are placed as they come. A hint that was asked for arrives later or never,
and one that is missing is asked for again. A query is either answered by both replicas before
anything else happens, or it is given up. -/
inductive InUse : Table → Layers → Option LayerHintRequest → Prop
  | start (table : Table) (scheme : Scheme) {smallest : Nat} (smallest_pos : 0 < smallest) :
      InUse table (empty scheme smallest smallest_pos) none
  | grow {table next : Table} {layers : Layers} {asked : Option LayerHintRequest} :
      InUse table layers asked → table.Precedes next → InUse next layers asked
  | update {table : Table} {layers : Layers} {asked : Option LayerHintRequest} {newRows : Nat}
      (tape : Tape) : InUse table layers asked → 0 < newRows →
      layers.total + newRows ≤ table.rowCount →
      InUse table (layers.update newRows table.rowLength tape).2.1
        (layers.update newRows table.rowLength tape).1
  | missing {table : Table} {layers : Layers} {asked : Option LayerHintRequest} (tape : Tape) :
      InUse table layers asked →
      InUse table (layers.missing tape).2.1 (layers.missing tape).1
  | install {table : Table} {layers : Layers} {request : LayerHintRequest} {hint : Hint}
      (tape : Tape) : InUse table layers (some request) → table.layerHint request = .ok hint →
      InUse table (layers.installHint hint tape).2.1 none
  | query {table : Table} {layers : Layers} {asked : Option LayerHintRequest} (row : Nat)
      (tape : Tape) : InUse table layers asked → layers.HasNumbersLeft →
      InUse table (layers.query row tape).2.1 asked
  | read {table : Table} {layers between after : Layers} {asked : Option LayerHintRequest}
      {row : Nat} {tape later : Tape} {queries : Sides LayeredQuery} {pending : PendingLayer}
      {servers : Sides Table} {answers : Sides (List Answer)} {given : Row} :
      InUse table layers asked → layers.HasNumbersLeft →
      layers.query row tape = (.ok (queries, pending), between, later) →
      table.Precedes servers.left → table.Precedes servers.right →
      servers.left.layerAnswer queries.left = .ok answers.left →
      servers.right.layerAnswer queries.right = .ok answers.right →
      between.reconstruct pending answers = .ok (given, after) → InUse table after asked

/-- Layers fit the rows of a table that were placed. Nothing but hints is missing, and the request
that was made last is for the one that is waited for. -/
structure Follows (table : Table) (layers : Layers) (asked : Option LayerHintRequest) : Prop where
  fits : ∃ known : Table, layers.Fits Client.ServesFew known ∧ known.Precedes table
  missHints : MissHintsOnly layers.slots
  awaits : ∀ request, asked = some request → layers.Awaits request

namespace Follows

variable {asked : Option LayerHintRequest}

theorem start (table : Table) (scheme : Scheme) {smallest : Nat} (smallest_pos : 0 < smallest) :
    Follows table (empty scheme smallest smallest_pos) none where
  fits := ⟨.empty 0, fits_nothing rfl rfl 0, Table.precedes_empty 0 table⟩
  missHints := fun _ _ _ held => nomatch held
  awaits := fun _ isRequest => nomatch isRequest

theorem grow (follows : Follows table layers asked) {next : Table}
    (precedes : table.Precedes next) : Follows next layers asked := by
  obtain ⟨known, fits, before⟩ := follows.fits
  exact ⟨⟨known, fits, before.trans precedes⟩, follows.missHints, follows.awaits⟩

theorem update (follows : Follows table layers asked) {newRows : Nat} (filled : 0 < newRows)
    (inside : layers.total + newRows ≤ table.rowCount) (tape : Tape) :
    Follows table (layers.update newRows table.rowLength tape).2.1
      (layers.update newRows table.rowLength tape).1 := by
  obtain ⟨known, fits, before⟩ := follows.fits
  rw [fits.total] at inside
  obtain ⟨range, knownFirst, precedes, rowCount, rowLength⟩ :=
    before.exists_first (Nat.le_add_right _ newRows) inside
  obtain ⟨request, after, later, updated, fitsAfter, awaits⟩ :=
    fits.update Client.holdsOfNew_servesFew knownFirst filled rowCount.symm tape
  have missHints := follows.missHints.update newRows table.rowLength tape
  rw [rowLength] at updated
  rw [updated] at missHints ⊢
  exact ⟨⟨range, fitsAfter, precedes⟩, missHints, awaits⟩

theorem missing (follows : Follows table layers asked) (tape : Tape) :
    Follows table (layers.missing tape).2.1 (layers.missing tape).1 := by
  obtain ⟨known, fits, before⟩ := follows.fits
  rcases fits.missing Client.holdsOfNew_servesFew tape with
    ⟨after, later, nothing, fitsAfter, ready⟩ |
    ⟨request, after, later, asks, fitsAfter, awaits, -, unready⟩
  · rw [nothing]
    exact ⟨⟨known, fitsAfter, before⟩, ready.missHintsOnly, fun _ isRequest => nomatch isRequest⟩
  · rw [asks]
    exact ⟨⟨known, fitsAfter, before⟩, follows.missHints.of_unready unready,
      fun other isRequest => Option.some.inj isRequest ▸ awaits⟩

/-- The hint is that of the range that the layer has in the rows that were placed, whatever was
added to the table since. -/
theorem install {request : LayerHintRequest} (follows : Follows table layers (some request))
    {hint : Hint} (isHint : table.layerHint request = .ok hint) (tape : Tape) :
    Follows table (layers.installHint hint tape).2.1 none := by
  obtain ⟨known, fits, before⟩ := follows.fits
  have awaits := follows.awaits request rfl
  have isKnown : known.layerHint request = .ok hint := by
    obtain ⟨index, slot, layer, drawing, -, held, active, -, rfl⟩ := awaits
    obtain ⟨-, filled⟩ := Slot.of_active? active
    obtain ⟨-, -, inside⟩ := fits.tile.of_active? held active
    have inside : layer.first + layer.count ≤ known.rowCount := inside.trans_eq fits.total
    rw [← isHint]
    exact (before.layerHint ⟨_, layer.first, layer.count⟩ filled inside).symm
  obtain ⟨after, later, installed, fitsAfter, index, fills⟩ :=
    fits.installHint Client.holdsOfNew_servesFew awaits isKnown tape
  rw [installed]
  exact ⟨⟨known, fitsAfter, before⟩,
    follows.missHints.of_unready fun other slot held unready =>
      (fills.others other slot held unready).2, fun _ isRequest => nomatch isRequest⟩

theorem query (follows : Follows table layers asked) (few : table.rowCount ≤ 2 ^ 32)
    (left : layers.HasNumbersLeft) (row : Nat) (tape : Tape) :
    Follows table (layers.query row tape).2.1 asked := by
  obtain ⟨known, fits, before⟩ := follows.fits
  have fits := fits.serves (before.rowCount_le.trans few)
  exact ⟨⟨known, (fits.query left row tape).servesFew, before⟩, follows.missHints.query row tape,
    fun request isRequest => (follows.awaits request isRequest).query row tape⟩

/-- Layers without any missing hint are ready for the rows that were placed. -/
theorem readyFor (follows : Follows table layers asked) (few : table.rowCount ≤ 2 ^ 32)
    (ready : layers.Ready) : ∃ known, layers.ReadyFor known ∧ known.Precedes table := by
  obtain ⟨known, fits, before⟩ := follows.fits
  exact ⟨known, (fits.serves (before.rowCount_le.trans few)).readyFor ready, before⟩

/-- A query that both replicas answer leaves all layers ready. -/
theorem read (follows : Follows table layers asked) (few : table.rowCount ≤ 2 ^ 32)
    (left : layers.HasNumbersLeft) {between after : Layers} {tape later : Tape}
    {queries : Sides LayeredQuery} {pending : PendingLayer} {servers : Sides Table}
    {answers : Sides (List Answer)} {given : Row}
    (made : layers.query row tape = (.ok (queries, pending), between, later))
    (precedesLeft : table.Precedes servers.left) (precedesRight : table.Precedes servers.right)
    (isLeft : servers.left.layerAnswer queries.left = .ok answers.left)
    (isRight : servers.right.layerAnswer queries.right = .ok answers.right)
    (reconstructed : between.reconstruct pending answers = .ok (given, after)) :
    Follows table after asked := by
  have allReady := ready_of_query made
  obtain ⟨known, ready, before⟩ := follows.readyFor few allReady
  have inside := ready.lt_total_of_query left made
  rcases ready.query_cases left (inside.trans_eq ready.total) tape with
    ⟨queries', pending', between', later', made', -, answered⟩ |
    ⟨failure, after', later', refused, -⟩
  · cases made.symm.trans made'
    obtain ⟨answers', found, isLeft', isRight', reconstructed', readyFound⟩ :=
      answered servers (before.trans precedesLeft) (before.trans precedesRight)
    have sameLeft : answers.left = answers'.left := Except.ok.inj (isLeft.symm.trans isLeft')
    have sameRight : answers.right = answers'.right := Except.ok.inj (isRight.symm.trans isRight')
    obtain rfl : answers = answers' := by
      cases answers
      cases answers'
      exact congrArg₂ Sides.mk sameLeft sameRight
    cases reconstructed.symm.trans reconstructed'
    exact ⟨⟨known, readyFound.fits.servesFew, before⟩, readyFound.ready.missHintsOnly,
      fun request isRequest => absurd allReady (follows.awaits request isRequest).not_ready⟩
  · rw [made] at refused
    cases refused

end Follows

/-- Whatever a client did with its layers, they follow the table. -/
theorem InUse.follows {asked : Option LayerHintRequest} (inUse : InUse table layers asked)
    (few : table.rowCount ≤ 2 ^ 32) : Follows table layers asked := by
  induction inUse with
  | start table scheme smallest_pos => exact .start table scheme smallest_pos
  | grow _ precedes ih => exact (ih (precedes.rowCount_le.trans few)).grow precedes
  | update tape _ filled inside ih => exact (ih few).update filled inside tape
  | missing tape _ ih => exact (ih few).missing tape
  | install tape _ isHint ih => exact (ih few).install isHint tape
  | query row tape _ left ih => exact (ih few).query few left row tape
  | read _ left made precedesLeft precedesRight isLeft isRight reconstructed ih =>
      exact (ih few).read few left made precedesLeft precedesRight isLeft isRight reconstructed

/-- A query for one of three rows uses up the numbers of one set, and covers the same rows after
it. -/
theorem ReadyFor.of_query_ofThree {client : PuncturedClient} {rowLength : Nat} {waits : Option Nat}
    (ready : (ofThree (some (.puncturedSets client)) rowLength waits).ReadyFor table) {count : Nat}
    (numbers : client.HasNumbersFor (count + 1)) (inside : row < 3) {tape later : Tape}
    {asked : Sides LayeredQuery × PendingLayer} {after : Layers}
    (made : (ofThree (some (.puncturedSets client)) rowLength waits).query row tape =
      (.ok asked, after, later)) :
    ∃ inner, after = ofThree (some (.puncturedSets inner)) rowLength waits ∧
      inner.HasNumbersFor count ∧ later.word = tape.word ∧
      ∀ row, (ofThree (some (.puncturedSets client)) rowLength waits).Covers row →
        after.Covers row := by
  obtain ⟨parts, slots, asks, rfl, -, -⟩ := of_query made
  have holds : Layer.holds ⟨0, 3, .puncturedSets, some (.puncturedSets client)⟩ row = true := by
    rw [Layer.holds, Bool.and_eq_true, decide_eq_true_eq, decide_eq_true_eq]
    exact ⟨Nat.zero_le row, inside⟩
  have active : Slot.active? ⟨3, some ⟨0, 3, .puncturedSets, some (.puncturedSets client)⟩⟩ =
      some ⟨0, 3, .puncturedSets, some (.puncturedSets client)⟩ := rfl
  have vacant : (Slot.vacant 1).active? = none := rfl
  have held : (ofThree (some (.puncturedSets client)) rowLength waits).slots[0]? = some _ := rfl
  obtain ⟨⟨_, range, isClient, -, serves, -⟩, -⟩ := ready.tile.of_active? held active
  cases isClient
  rcases isAsked : client.query row tape with ⟨failure | sets, inner, last⟩
  · simp only [ofThree, askSlots, active, askLayer, if_pos holds, Client.query, Nat.sub_zero,
      isAsked, Except.map] at asks
    cases asks
  · simp only [ofThree, askSlots, active, vacant, askLayer, if_pos holds, Client.query,
      Nat.sub_zero, isAsked, Except.map] at asks
    cases asks
    obtain ⟨fewer, word, kept⟩ := numbers.of_query serves isAsked
    refine ⟨inner, rfl, fewer, word, fun row covers => ?_⟩
    intro layer member isHeld other isOther
    obtain rfl := List.mem_singleton.mp member
    cases isOther
    obtain ⟨slot, holdsRow⟩ := covers _ List.mem_cons_self isHeld _ rfl
    exact ⟨slot, kept slot _ holdsRow⟩

/-- Layers of three rows and one that was added later. There is a hint for the three of them, and
one of them can be queried, as well as the fourth. -/
theorem exists_inUse_ofFour {early table : Table} (rowCount : early.rowCount = 3)
    (precedes : early.Precedes table) (more : table.rowCount = 4) :
    ∃ hint client later covered,
      (ofThree none early.rowLength (some 0)).installHint hint Tape.circle.label.2 =
        (.ok (), ofThree (some (.puncturedSets client)) early.rowLength none, later) ∧
      client.current.tree.domain = 3 ∧ client.current.tree.size = 2 ∧
      InUse table (ofFour (.puncturedSets client) table.rowLength) none ∧
      (ofFour (.puncturedSets client) table.rowLength).HasNumbersLeft ∧ covered < 3 ∧
      ∀ row ∈ [covered, 3], ∃ queries pending after later,
        (ofFour (.puncturedSets client) table.rowLength).query row .circle =
          (.ok (queries, pending), after, later) := by
  obtain ⟨hint, client, later, isHint, installed, -, domain, size, numbers⟩ :=
    exists_hint_ofThree rowCount
  have rowLength : table.rowLength = early.rowLength := precedes.rowLength (by omega)
  have inUse : InUse table (ofFour (.puncturedSets client) table.rowLength) none := by
    have begun := (InUse.start early .puncturedSets Nat.one_pos).update .circle three_pos
      rowCount.ge
    rw [update_empty] at begun
    have ready := begun.install Tape.circle.label.2 isHint
    rw [installed, ← rowLength] at ready
    have grown := (ready.grow precedes).update .circle Nat.one_pos more.ge
    rwa [update_ofThree] at grown
  have few : table.rowCount ≤ 2 ^ 32 := by
    rw [more]
    decide
  have leftClient : (Client.puncturedSets client).HasNumbersLeft := numbers.hasNumbersLeft
  have left := hasNumbersLeft_ofFour leftClient table.rowLength
  have follows := inUse.follows few
  obtain ⟨known, ready, -⟩ := follows.readyFor few
    (ready_of_missing follows.missHints (rfl : (missing _ .circle).1 = none))
  obtain ⟨covered, inFirst, coversFirst, coversLast⟩ := exists_covered_ofFour ready left
  have total : known.rowCount = 4 := ready.total.symm
  refine ⟨hint, client, later, covered, installed, domain, size, inUse, left, inFirst,
    List.forall_mem_cons.mpr ⟨?_, List.forall_mem_singleton.mpr ?_⟩⟩
  · exact ready.exists_query left (by omega) coversFirst Tape.fair_circle
  · exact ready.exists_query left (by omega) coversLast Tape.fair_circle

/-- A query for a row, with layers in use of which none misses its hint. Without rows it is refused,
as are rows beyond the last one. A row of the table is refused only by a layer that is read with
punctured sets and has the row; only a tape that is not fair ends the search for a set. Otherwise
every layer that has rows gets a query over exactly its rows, the answers of the two replicas give
the row, and giving them to the client changes the layer that has the row and no other one. -/
theorem InUse.query_routes {asked : Option LayerHintRequest} (inUse : InUse table layers asked)
    (few : table.rowCount ≤ 2 ^ 32) {spare : Tape} (settled : (layers.missing spare).1 = none)
    (left : layers.HasNumbersLeft) (row : Nat) (tape : Tape) :
    (layers.total = 0 → (layers.query row tape).1 = .error .noActiveLayers) ∧
      (0 < layers.total → layers.total ≤ row →
        (layers.query row tape).1 = .error (.indexOutOfBounds row layers.total) ∨
          (layers.query row tape).1 = .error .exhausted ∧ ¬ tape.Fair) ∧
      (row < layers.total →
        (∃ layer ∈ layers.active, layer.scheme = .puncturedSets ∧ layer.holds row = true ∧
          (layers.query row tape).1 = .error (.notCovered (row - layer.first))) ∨
        (layers.query row tape).1 = .error .exhausted ∧ ¬ tape.Fair ∨
        ∃ queries pending after later,
          layers.query row tape = (.ok (queries, pending), after, later) ∧
          after.outline = layers.outline ∧ after.Names row pending ∧
          ∀ servers : Sides Table, table.Precedes servers.left → table.Precedes servers.right →
            after.Cuts table.rows.toList servers.left queries.left ∧
            after.Cuts table.rows.toList servers.right queries.right ∧
            ∃ answers given found,
              servers.left.layerAnswer queries.left = .ok (Sides.left answers) ∧
              servers.right.layerAnswer queries.right = .ok (Sides.right answers) ∧
              after.reconstruct pending answers = .ok (given, found) ∧
              table.row row = .ok given ∧ found.outline = after.outline ∧
              ∀ slot, slot ≠ pending.slot → found.slots[slot]? = after.slots[slot]?) := by
  have follows := inUse.follows few
  obtain ⟨known, ready, before⟩ :=
    follows.readyFor few (ready_of_missing follows.missHints settled)
  refine ⟨fun nothing => query_of_inactive (ready.active_eq_nil nothing) row tape,
    fun filled beyond => ready.query_beyond left filled beyond tape, fun inside => ?_⟩
  have inKnown : row < known.rowCount := inside.trans_eq ready.total
  have isRow : table.row row = .ok (known.rowAt row) := by
    rw [Table.row_eq_rowAt (inKnown.trans_le before.rowCount_le), before.rowAt inKnown]
  rcases ready.query_cases left inKnown tape with
    ⟨queries, pending, after, later, made, -, answered⟩ | ⟨failure, after, later, refused, -, why⟩
  · obtain ⟨names, cuts⟩ := ready.names_and_cuts left made before
    have sameOutline := outline_query layers row tape
    rw [made] at sameOutline
    refine Or.inr (Or.inr ⟨queries, pending, after, later, made, sameOutline, names,
      fun servers precedesLeft precedesRight => ?_⟩)
    obtain ⟨answers, found, isLeft, isRight, reconstructed, -⟩ :=
      answered servers (before.trans precedesLeft) (before.trans precedesRight)
    obtain ⟨client, isFound⟩ := eq_of_reconstruct reconstructed
    refine ⟨(cuts _ precedesLeft).1, (cuts _ precedesRight).2, answers, _, found, isLeft, isRight,
      reconstructed, isRow, outline_reconstruct reconstructed, fun slot other => ?_⟩
    rw [isFound]
    exact getElem?_install_of_ne other client
  · rw [refused]
    rcases why with ⟨layer, member, punctured, holds, -, rfl⟩ | ⟨rfl, unfair⟩
    · exact Or.inl ⟨layer, member, punctured, holds, rfl⟩
    · exact Or.inr (Or.inl ⟨rfl, unfair⟩)

/-- One of three rows, which are read with punctured sets, and a row that was added later, which is
in a layer of its own. -/
theorem query_routes_added_row :
    ∃ (table : Table) (layers : Layers) (asked : Option LayerHintRequest),
      InUse table layers asked ∧ table.rowCount ≤ 2 ^ 32 ∧
      (layers.missing .circle).1 = none ∧ layers.HasNumbersLeft ∧
      layers.active.map (fun layer => (layer.scheme, layer.first, layer.count)) =
        [(.puncturedSets, 0, 3), (.pointFunction, 3, 1)] ∧
      ∃ covered < 3, ∀ row ∈ [covered, 3], ∃ queries pending after later,
        layers.query row .circle = (.ok (queries, pending), after, later) ∧
        after.Names row pending ∧ after.Cuts [[1], [2], [3], [4]] table queries.left ∧
        ∃ answers given found, table.row row = .ok given ∧
          table.layerAnswer queries.left = .ok (Sides.left answers) ∧
          table.layerAnswer queries.right = .ok (Sides.right answers) ∧
          after.reconstruct pending answers = .ok (given, found) := by
  let early : Table := ⟨1, #[[1], [2], [3]], by simp, fun _ => Nat.one_pos⟩
  let table : Table := ⟨1, #[[1], [2], [3], [4]], by simp, fun _ => Nat.one_pos⟩
  have continued : early.Precedes table := ⟨[[4]], rfl⟩
  obtain ⟨hint, client, later, covered, -, -, -, inUse, left, inFirst, asks⟩ :=
    exists_inUse_ofFour rfl continued rfl
  have few : table.rowCount ≤ 2 ^ 32 := by decide
  set layers := ofFour (.puncturedSets client) table.rowLength
  have settled : (layers.missing .circle).1 = none := rfl
  refine ⟨table, layers, none, inUse, few, settled, left, rfl, covered, inFirst, ?_⟩
  intro row member
  obtain ⟨_, _, _, _, made⟩ := asks row member
  have inside : row < 4 := by
    simp only [List.mem_cons, List.not_mem_nil, or_false] at member
    omega
  obtain ⟨-, -, within⟩ := inUse.query_routes few settled left row .circle
  rcases within inside with
    ⟨layer, -, -, -, refused⟩ | ⟨-, unfair⟩ |
    ⟨queries, pending, after, later, made, -, names, answered⟩
  · rw [made] at refused
    cases refused
  · exact absurd Tape.fair_circle unfair
  · have same : table.Precedes table := List.prefix_rfl
    obtain ⟨cuts, -, answers, given, found, isLeft, isRight, reconstructed, isRow, -⟩ :=
      answered (.both table) same same
    exact ⟨queries, pending, after, later, made, names, cuts, answers, given, found, isRow,
      isLeft, isRight, reconstructed⟩

end Layers

end PrivateRetrieval
