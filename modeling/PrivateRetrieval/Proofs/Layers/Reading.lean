/-
# Reading through layers

A read asks every layer that has rows, and one of them has the row. The servers cut the ranges
of the layers out of their tables, along the boundaries that come with the queries; the tables
may have grown since the layers were made. What the servers answer for the range with the row is
what the client of that layer needs, and it finds the row there. The other answers are ignored.

A read that is refused ends the round early. The layers that were asked before it have moved on,
and all layers are as ready as before.
-/

import PrivateRetrieval.Proofs.Layers.Readiness

namespace PrivateRetrieval

/-- A layer has a client, which serves the layer's range of a table by the scheme of the layer. -/
def Layer.ReadyFor (table : Table) (layer : Layer) : Prop :=
  ∃ client range, layer.client = some client ∧ table.slice layer.first layer.last = .ok range ∧
    client.Serves range ∧ client.scheme = layer.scheme

/-- Every client of a layer has the numbers left that its next set uses up. -/
def Layer.HasNumbersLeft (layer : Layer) : Prop :=
  ∀ client, layer.client = some client → client.HasNumbersLeft

/-- A layer was asked, and is as it was left then. Servers that hold the table answer what it was
asked. If the layer has the row, its client finds the row in the answers. -/
structure Layer.Asked (table : Table) (row : Nat) (layer : Layer) (part : LayerPart)
    (answers : Sides Answer) : Prop where
  first : part.first = layer.first
  last : part.last = layer.last
  meant : part.pending.isSome = layer.holds row
  replies : ∃ client range, layer.client = some client ∧
    table.slice layer.first layer.last = .ok range ∧ client.Serves range ∧
    client.scheme = layer.scheme ∧ Client.Answered range part.queries answers ∧
    ∀ pending, part.pending = some pending →
      client.Finds range (row - layer.first) pending answers

/-- The client of a layer, if it has one, can ask for a row. -/
def Layer.Covers (layer : Layer) (row : Nat) : Prop :=
  ∀ client, layer.client = some client → client.Covers (row - layer.first)

/-- Why a layer is not asked for a row: it is read with punctured sets, of which none contains the
row, or the tape is not fair. -/
def Layer.Refusal (row : Nat) (tape : Tape) (layers : List Layer) (failure : Failure) : Prop :=
  (∃ layer ∈ layers, layer.scheme = .puncturedSets ∧ layer.holds row = true ∧
    ¬ layer.Covers row ∧ failure = .notCovered (row - layer.first)) ∨
    failure = .exhausted ∧ ¬ tape.Fair

theorem Layer.Asked.readyFor {table : Table} {row : Nat} {layer : Layer} {part : LayerPart}
    {answers : Sides Answer} (asked : layer.Asked table row part answers) :
    layer.ReadyFor table := by
  obtain ⟨client, range, isClient, given, serves, scheme, -, -⟩ := asked.replies
  exact ⟨client, range, isClient, given, serves, scheme⟩

theorem Layer.ReadyFor.suits {table : Table} {layer : Layer} (ready : layer.ReadyFor table) :
    layer.Suits Client.Serves table := by
  obtain ⟨client, range, isClient, found⟩ := ready
  intro other isOther
  obtain rfl : client = other := Option.some.inj (isClient.symm.trans isOther)
  exact ⟨range, found⟩

/-- A layer that has rows covers one of them. -/
theorem Layer.ReadyFor.exists_covers {table : Table} {layer : Layer} (ready : layer.ReadyFor table)
    (left : layer.HasNumbersLeft) (filled : 0 < layer.count) :
    ∃ row, layer.holds row = true ∧ layer.Covers row := by
  obtain ⟨client, range, isClient, given, serves, -⟩ := ready
  obtain ⟨ordered, inside⟩ := Table.of_slice given
  obtain ⟨range', given', -, -, rowCount⟩ := Table.exists_slice ordered inside
  obtain rfl : range = range' := Except.ok.inj (given.symm.trans given')
  rw [Layer.last, Nat.add_sub_cancel_left] at rowCount
  obtain ⟨row, within, covers⟩ :=
    Client.exists_covers serves (left client isClient) (rowCount ▸ filled)
  refine ⟨layer.first + row, ?_, fun other isOther => ?_⟩
  · rw [Layer.holds, Layer.last, Bool.and_eq_true, decide_eq_true_eq, decide_eq_true_eq]
    omega
  · obtain rfl : client = other := Option.some.inj (isClient.symm.trans isOther)
    rwa [Nat.add_sub_cancel_left]

/-- A refusal by some of the layers, later on the tape, is one by all of them. -/
theorem Layer.Refusal.mono {row : Nat} {tape later : Tape} {some all : List Layer}
    {failure : Failure} (refused : Layer.Refusal row later some failure)
    (same : later.word = tape.word) (subset : some ⊆ all) :
    Layer.Refusal row tape all failure := by
  rcases refused with ⟨layer, member, punctured⟩ | ⟨exhausted, unfair⟩
  · exact Or.inl ⟨layer, subset member, punctured⟩
  · exact Or.inr ⟨exhausted, fun fair => unfair ((Tape.fair_congr same).mpr fair)⟩

namespace Layers

variable {table : Table} {row : Nat}

/-- A layer is asked, or refuses. -/
theorem askLayer_cases {layer : Layer} (ready : layer.ReadyFor table)
    (left : layer.HasNumbersLeft) (filled : 0 < layer.count) (row : Nat) (tape : Tape) :
    (∃ part client later answers,
        askLayer row layer tape = (.ok part, { layer with client := some client }, later) ∧
        later.word = tape.word ∧
        Layer.Asked table row { layer with client := some client } part answers) ∨
      ∃ failure client,
        askLayer row layer tape = (.error failure, { layer with client := some client }, tape) ∧
        Layer.ReadyFor table { layer with client := some client } ∧
        Layer.Refusal row tape [layer] failure := by
  obtain ⟨client, range, isClient, given, serves, scheme⟩ := ready
  have left := left client isClient
  obtain ⟨ordered, inside⟩ := Table.of_slice given
  obtain ⟨range', given', -, -, rowCount⟩ := Table.exists_slice ordered inside
  obtain rfl : range = range' := Except.ok.inj (given.symm.trans given')
  rw [Layer.last, Nat.add_sub_cancel_left] at rowCount
  rw [askLayer, isClient]
  dsimp only
  by_cases holds : layer.holds row = true
  · have within : row - layer.first < range.rowCount := by
      rw [Layer.holds, Bool.and_eq_true, decide_eq_true_eq, decide_eq_true_eq, Layer.last] at holds
      omega
    rw [if_pos holds]
    rcases Client.query_cases serves left within tape with
      ⟨queries, pending, after, later, answers, asks, same, servesAfter, schemeAfter, answered,
        finds⟩ | ⟨failure, after, refused, servesAfter, schemeAfter, why⟩
    · rw [asks]
      refine Or.inl ⟨_, after, later, answers, rfl, same, rfl, rfl, holds.symm, after, range, rfl,
        given, servesAfter, schemeAfter.trans scheme, answered, ?_⟩
      intro other isOther
      cases isOther
      exact finds
    · rw [refused]
      refine Or.inr ⟨failure, after, rfl, ⟨after, range, rfl, given, servesAfter,
        schemeAfter.trans scheme⟩, ?_⟩
      rcases why with ⟨isPunctured, missed, isFailure⟩ | unfair
      · exact Or.inl ⟨layer, List.mem_singleton_self layer, scheme.symm.trans isPunctured, holds,
          fun covers => missed (covers client isClient), isFailure⟩
      · exact Or.inr unfair
  · rw [if_neg holds]
    rcases Client.dummy_cases serves left (rowCount ▸ filled) tape with
      ⟨queries, after, later, answers, asks, same, servesAfter, schemeAfter, answered⟩ |
      ⟨after, refused, servesAfter, schemeAfter, unfair⟩
    · rw [asks]
      refine Or.inl ⟨_, after, later, answers, rfl, same, rfl, rfl,
        (Bool.eq_false_of_not_eq_true holds).symm, after, range, rfl, given, servesAfter,
        schemeAfter.trans scheme, answered, ?_⟩
      intro other isOther
      cases isOther
    · rw [refused]
      exact Or.inr ⟨_, after, rfl, ⟨after, range, rfl, given, servesAfter,
        schemeAfter.trans scheme⟩, Or.inr ⟨rfl, unfair⟩⟩

/-- Slots were asked in order, and their layers lie next to each other. -/
inductive AskedSlots (table : Table) (row : Nat) :
    Nat → List Slot → List (Option LayerPart) → List (Sides Answer) → Nat → Prop
  | nil (first : Nat) : AskedSlots table row first [] [] [] first
  | vacant {slot : Slot} {slots : List Slot} {parts : List (Option LayerPart)}
      {answers : List (Sides Answer)} {first last : Nat} :
      slot.active? = none → AskedSlots table row first slots parts answers last →
      AskedSlots table row first (slot :: slots) (none :: parts) answers last
  | layer {slot : Slot} {slots : List Slot} {layer : Layer} {part : LayerPart}
      {parts : List (Option LayerPart)} {reply : Sides Answer} {answers : List (Sides Answer)}
      {first last : Nat} :
      slot.active? = some layer → layer.first = first → layer.Asked table row part reply →
      AskedSlots table row layer.last slots parts answers last →
      AskedSlots table row first (slot :: slots) (some part :: parts) (reply :: answers) last

/-- Slots are asked in order, up to the first one that refuses. -/
theorem askSlots_cases {slots : List Slot} {first last : Nat}
    (tile : Tile (fun layer => layer.ReadyFor table ∧ layer.HasNumbersLeft) first slots last)
    (row : Nat) (tape : Tape) :
    (∃ parts after later answers, askSlots row slots tape = (.ok parts, after, later) ∧
        later.word = tape.word ∧ AskedSlots table row first after parts answers last) ∨
      ∃ failure after later, askSlots row slots tape = (.error failure, after, later) ∧
        Tile (Layer.ReadyFor table) first after last ∧
        Layer.Refusal row tape (slots.filterMap Slot.active?) failure := by
  induction tile generalizing tape with
  | nil first => exact Or.inl ⟨[], [], tape, [], rfl, rfl, .nil first⟩
  | @vacant slot slots first last inactive rest ih =>
      rw [askSlots, inactive]
      dsimp only
      rcases ih tape with ⟨parts, after, later, answers, asks, same, asked⟩ |
        ⟨failure, after, later, refused, tileAfter, why⟩
      · rw [asks]
        exact Or.inl ⟨none :: parts, slot :: after, later, answers, rfl, same,
          .vacant inactive asked⟩
      · rw [refused]
        refine Or.inr ⟨failure, slot :: after, later, rfl, .vacant inactive tileAfter, ?_⟩
        rw [List.filterMap_cons_none inactive]
        exact why
  | @layer slot slots layer first last active isFirst good rest ih =>
      obtain ⟨ready, left⟩ := good
      obtain ⟨-, filled⟩ := Slot.of_active? active
      have plain : Tile (Layer.ReadyFor table) layer.last slots last :=
        rest.imp fun _ _ good _ _ => good.1
      rw [askSlots, active]
      dsimp only
      rcases askLayer_cases ready left filled row tape with
        ⟨part, client, between, reply, asks, same, asked⟩ |
        ⟨failure, client, refused, readyAfter, why⟩
      · rw [asks]
        dsimp only
        have activeAfter : Slot.active?
            { slot with layer := some { layer with client := some client } } = _ :=
          Slot.active?_of_layer slot.capacity filled
        rcases ih between with ⟨parts, after, later, answers, asksRest, sameRest, askedRest⟩ |
          ⟨failure, after, later, refused, tileAfter, why⟩
        · rw [asksRest]
          exact Or.inl ⟨_, _, later, reply :: answers, rfl, sameRest.trans same,
            .layer activeAfter isFirst asked askedRest⟩
        · rw [refused]
          refine Or.inr ⟨failure, _, later, rfl,
            .layer activeAfter isFirst asked.readyFor tileAfter, ?_⟩
          rw [List.filterMap_cons_some active]
          exact why.mono same (List.subset_cons_self _ _)
      · rw [refused]
        refine Or.inr ⟨failure, _, tape, rfl,
          .layer (Slot.active?_of_layer slot.capacity filled) isFirst readyAfter plain, ?_⟩
        rw [List.filterMap_cons_some active]
        apply why.mono rfl
        intro other member
        rw [List.mem_singleton.mp member]
        exact List.mem_cons_self

namespace AskedSlots

variable {slots : List Slot} {parts : List (Option LayerPart)} {answers : List (Sides Answer)}
  {first last : Nat}

theorem tile (asked : AskedSlots table row first slots parts answers last) :
    Tile (Layer.ReadyFor table) first slots last := by
  induction asked with
  | nil first => exact .nil first
  | vacant inactive _ ih => exact .vacant inactive ih
  | layer active isFirst asked _ ih => exact .layer active isFirst asked.readyFor ih

/-- The boundaries that are sent are where the first layer begins and where each layer ends. -/
theorem boundaries (asked : AskedSlots table row first slots parts answers last)
    (meant : parts.filterMap id ≠ []) :
    Layers.boundaries (parts.filterMap id) = first :: (parts.filterMap id).map LayerPart.last := by
  induction asked with
  | nil first => exact absurd rfl meant
  | vacant inactive _ ih => exact ih meant
  | @layer slot slots layer part parts reply answers first last active isFirst asked rest ih =>
      have kept : (some part :: parts).filterMap id = part :: parts.filterMap id := rfl
      rw [kept]
      cases others : parts.filterMap id with
      | nil =>
          show [part.first, part.last] = [first, part.last]
          rw [asked.first, isFirst]
      | cons next more =>
          have tail := ih (by rw [others]; exact List.cons_ne_nil _ _)
          rw [others, Layers.boundaries] at tail
          rw [Layers.boundaries, List.map_cons, List.cons_append, List.getLast?_cons_cons, tail,
            asked.first, isFirst, ← asked.last, ← List.map_cons]

/-- A server whose table continues the one that the layers know answers what the layers were asked,
each layer from its range. -/
theorem answerRanges (asked : AskedSlots table row first slots parts answers last) {other : Table}
    (precedes : table.Precedes other) (inside : last ≤ table.rowCount)
    {ask : Sides Query → Query} {reply : Sides Answer → Answer}
    (answered : ∀ range queries answers, Client.Answered range queries answers →
      range.answer (ask queries) = .ok (reply answers)) :
    other.answerRanges ((parts.filterMap id).map fun part => ask part.queries)
        (first :: (parts.filterMap id).map LayerPart.last) = .ok (answers.map reply) := by
  induction asked with
  | nil first => rfl
  | vacant inactive _ ih => exact ih inside
  | @layer slot slots layer part parts replies answers first last active isFirst asked rest ih =>
      obtain ⟨client, range, -, given, -, -, isAnswered, -⟩ := asked.replies
      have filled : layer.first < layer.last :=
        Nat.lt_add_of_pos_right (Slot.of_active? active).2
      have givenOther := (precedes.slice filled (rest.tile.le.trans inside)).trans given
      have rest := ih inside
      rw [← asked.last] at rest givenOther
      rw [isFirst] at givenOther
      have kept : (some part :: parts).filterMap id = part :: parts.filterMap id := rfl
      rw [kept, List.map_cons, List.map_cons, Table.answerRanges]
      simp only [givenOther, bind, Except.bind, answered _ _ _ isAnswered, rest]
      rfl

end AskedSlots

/-- Who remembers something of a round has asked a layer. -/
theorem ne_nil_of_pendingOf {parts : List (Option LayerPart)} {pending : PendingLayer}
    (isPending : pendingOf parts = some pending) : parts.filterMap id ≠ [] := by
  intro nothing
  rw [pendingOf, nothing] at isPending
  cases isSlot : parts.findIdx? (·.any fun part => part.pending.isSome) with
  | none =>
      rw [isSlot] at isPending
      cases isPending
  | some slot =>
      rw [isSlot] at isPending
      cases isPending

theorem pendingOf_none (parts : List (Option LayerPart)) :
    pendingOf (none :: parts) =
      (pendingOf parts).map fun pending => { pending with slot := pending.slot + 1 } := by
  have dropped : (none :: parts).filterMap id = parts.filterMap id := rfl
  rw [pendingOf, pendingOf, dropped, List.findIdx?_cons, Option.any_none,
    if_neg Bool.false_ne_true]
  cases parts.findIdx? (·.any fun part => part.pending.isSome) with
  | none => rfl
  | some slot =>
      cases (parts.filterMap id).findIdx? fun part => part.pending.isSome with
      | none => rfl
      | some place =>
          simp only [Option.map_some, Option.bind_eq_bind, Option.bind_some]
          cases (parts.filterMap id)[place]? with
          | none => rfl
          | some part =>
              rw [Option.bind_some, Option.bind_some]
              cases part.pending <;> rfl

theorem pendingOf_meant {part : LayerPart} {pending : Pending} (meant : part.pending = some pending)
    (parts : List (Option LayerPart)) :
    pendingOf (some part :: parts) = some ⟨0, 0, pending⟩ := by
  have kept : (some part :: parts).filterMap id = part :: parts.filterMap id := rfl
  have isMeant : part.pending.isSome = true := by
    rw [meant]
    rfl
  rw [pendingOf, kept, List.findIdx?_cons, List.findIdx?_cons, Option.any_some, if_pos isMeant,
    if_pos isMeant]
  simp [meant]

theorem pendingOf_other {part : LayerPart} (other : part.pending = none)
    (parts : List (Option LayerPart)) :
    pendingOf (some part :: parts) =
      (pendingOf parts).map fun pending =>
        { pending with slot := pending.slot + 1, place := pending.place + 1 } := by
  have kept : (some part :: parts).filterMap id = part :: parts.filterMap id := rfl
  have notMeant : ¬ part.pending.isSome = true := by
    rw [other]
    exact Bool.false_ne_true
  rw [pendingOf, pendingOf, kept, List.findIdx?_cons, List.findIdx?_cons, Option.any_some,
    if_neg notMeant, if_neg notMeant]
  cases parts.findIdx? (·.any fun part => part.pending.isSome) with
  | none => rfl
  | some slot =>
      cases (parts.filterMap id).findIdx? fun part => part.pending.isSome with
      | none => rfl
      | some place =>
          simp only [Option.map_some, Option.bind_eq_bind, Option.bind_some,
            List.getElem?_cons_succ]
          cases (parts.filterMap id)[place]? with
          | none => rfl
          | some part =>
              rw [Option.bind_some, Option.bind_some]
              cases part.pending <;> rfl

/-- What is remembered of a round is the slot of the layer that has the row, and the place of its
answer among the answers, which is that of the layer among those that were asked. -/
theorem AskedSlots.pendingOf {slots : List Slot} {parts : List (Option LayerPart)}
    {answers : List (Sides Answer)} {first last : Nat}
    (asked : AskedSlots table row first slots parts answers last) (after : first ≤ row)
    (before : row < last) :
    ∃ pending slot layer part reply, Layers.pendingOf parts = some pending ∧
      slots[pending.slot]? = some slot ∧ slot.active? = some layer ∧
      (slots.filterMap Slot.active?)[pending.place]? = some layer ∧
      answers[pending.place]? = some reply ∧ layer.Asked table row part reply ∧
      layer.holds row = true ∧ part.pending = some pending.pending := by
  induction asked with
  | nil first => exact absurd (after.trans_lt before) (Nat.lt_irrefl first)
  | @vacant slot slots parts answers first last inactive rest ih =>
      obtain ⟨pending, slot', layer, part, reply, isPending, held, active, found⟩ := ih after before
      rw [List.filterMap_cons_none inactive]
      refine ⟨{ pending with slot := pending.slot + 1 }, slot', layer, part, reply, ?_, held,
        active, found⟩
      rw [pendingOf_none, isPending, Option.map_some]
  | @layer slot slots layer part parts reply answers first last active isFirst asked rest ih =>
      rw [List.filterMap_cons_some active]
      cases meant : part.pending with
      | some pending =>
          have holds := asked.meant
          rw [meant, Option.isSome_some] at holds
          exact ⟨⟨0, 0, pending⟩, slot, layer, part, reply, pendingOf_meant meant parts, rfl,
            active, rfl, rfl, asked, holds.symm, meant⟩
      | none =>
          have below : layer.last ≤ row := by
            have holds := asked.meant
            rw [meant, Option.isSome_none, Layer.holds,
              decide_eq_true (isFirst.trans_le after), Bool.true_and] at holds
            exact Nat.not_lt.mp (of_decide_eq_false holds.symm)
          obtain ⟨pending, slot', layer', part', reply', isPending, held, active', found⟩ :=
            ih below before
          refine ⟨{ pending with slot := pending.slot + 1, place := pending.place + 1 }, slot',
            layer', part', reply', ?_, held, active', found⟩
          rw [pendingOf_other meant, isPending, Option.map_some]

/-! ## Rounds -/

/-- Layers tile the rows of a table, and each has a client that serves its range. -/
structure ReadyFor (layers : Layers) (table : Table) : Prop where
  tile : Tile (Layer.ReadyFor table) 0 layers.slots layers.total
  total : layers.total = table.rowCount
  rowLength : 0 < layers.total → layers.rowLength = table.rowLength

/-- Every layer that has rows has the numbers left that its next set uses up. -/
def HasNumbersLeft (layers : Layers) : Prop := ∀ layer ∈ layers.active, layer.HasNumbersLeft

/-- The layer that has a row, if there is one, can be asked for it. -/
def Covers (layers : Layers) (row : Nat) : Prop :=
  ∀ layer ∈ layers.active, layer.holds row = true → layer.Covers row

variable {layers : Layers}

theorem ReadyFor.fits (ready : layers.ReadyFor table) : layers.Fits Client.Serves table where
  tile := ready.tile.imp fun _ _ isReady _ _ => isReady.suits
  total := ready.total
  rowLength := ready.rowLength

theorem ReadyFor.tile_hasNumbersLeft (ready : layers.ReadyFor table)
    (left : layers.HasNumbersLeft) :
    Tile (fun layer => layer.ReadyFor table ∧ layer.HasNumbersLeft) 0 layers.slots layers.total :=
  ready.tile.imp fun layer member isReady _ _ => ⟨isReady, left layer member⟩

/-- Layers that fit a table and have all clients are ready. -/
theorem Fits.readyFor (fits : layers.Fits Client.Serves table) (ready : layers.Ready) :
    layers.ReadyFor table where
  tile := by
    apply fits.tile.imp
    intro layer member serves _ _
    obtain ⟨client, isClient⟩ := ready layer member
    obtain ⟨range, given, found⟩ := serves client isClient
    exact ⟨client, range, isClient, given, found⟩
  total := fits.total
  rowLength := fits.rowLength

/-- The layer that has the row finds it in the answers, and the layers are ready again. -/
theorem AskedSlots.reconstruct {parts : List (Option LayerPart)} {answers : List (Sides Answer)}
    (asked : AskedSlots table row 0 layers.slots parts answers layers.total)
    (total : layers.total = table.rowCount)
    (rowLength : 0 < layers.total → layers.rowLength = table.rowLength)
    (inside : row < layers.total) :
    ∃ pending found, Layers.pendingOf parts = some pending ∧
      layers.reconstruct pending ⟨answers.map Sides.left, answers.map Sides.right⟩ =
        .ok (table.rowAt row, found) ∧
      found.ReadyFor table := by
  obtain ⟨pending, slot, layer, part, reply, isPending, held, active, -, isReply, isAsked, holds,
    meant⟩ := asked.pendingOf (Nat.zero_le row) inside
  obtain ⟨isLayer, -⟩ := Slot.of_active? active
  obtain ⟨client, range, isClient, given, -, scheme, -, finds⟩ := isAsked.replies
  obtain ⟨after, found, serves, schemeAfter⟩ := finds _ meant
  refine ⟨pending, { layers with slots := install layers.slots pending.slot after }, isPending, ?_,
    ?_, total, rowLength⟩
  · have leftReply : (answers.map Sides.left)[pending.place]? = some reply.left := by
      rw [List.getElem?_map, isReply, Option.map_some]
    have rightReply : (answers.map Sides.right)[pending.place]? = some reply.right := by
      rw [List.getElem?_map, isReply, Option.map_some]
    have isRow : range.rowAt (row - layer.first) = table.rowAt row := by
      rw [Layer.holds, Bool.and_eq_true, decide_eq_true_eq, decide_eq_true_eq] at holds
      have position : layer.first + (row - layer.first) = row := by omega
      rw [Table.rowAt_of_slice given (position.trans_lt holds.2), position]
    rw [isRow] at found
    simp only [Layers.reconstruct, leftReply, rightReply, held, Option.bind_some, isLayer,
      isClient, bind, Except.bind, found]
    rfl
  · apply asked.tile.install
    intro slot' layer' held' active' _
    obtain rfl : slot' = slot := Option.some.inj (held'.symm.trans held)
    obtain rfl : layer' = layer := Option.some.inj (active'.symm.trans active)
    exact ⟨after, range, rfl, given, serves, schemeAfter.trans scheme⟩

/-- A server whose table continues the one that the layers know answers the round. -/
theorem AskedSlots.layerAnswer {slots : List Slot} {parts : List (Option LayerPart)}
    {answers : List (Sides Answer)} {last : Nat}
    (asked : AskedSlots table row 0 slots parts answers last) (inside : last ≤ table.rowCount)
    (filled : parts.filterMap id ≠ []) {server : Table} (precedes : table.Precedes server)
    {ask : Sides Query → Query} {reply : Sides Answer → Answer}
    (answered : ∀ range queries answers, Client.Answered range queries answers →
      range.answer (ask queries) = .ok (reply answers)) :
    server.layerAnswer (layeredQuery (parts.filterMap id) ask) = .ok (answers.map reply) := by
  rw [Table.layerAnswer, layeredQuery, asked.boundaries filled, if_pos]
  · exact asked.answerRanges precedes inside answered
  · rw [List.length_cons, List.length_map, List.length_map]

/-- A row is queried, or refused. Servers whose tables continue the one that the layers are
ready for answer the queries, and the row is found in their answers. -/
theorem ReadyFor.query_cases (ready : layers.ReadyFor table) (left : layers.HasNumbersLeft)
    (inside : row < table.rowCount) (tape : Tape) :
    (∃ queries pending after later,
        layers.query row tape = (.ok (queries, pending), after, later) ∧
        after.ReadyFor table ∧ ∀ servers : Sides Table, table.Precedes servers.left →
          table.Precedes servers.right → ∃ answers found,
            servers.left.layerAnswer queries.left = .ok (Sides.left answers) ∧
            servers.right.layerAnswer queries.right = .ok (Sides.right answers) ∧
            after.reconstruct pending answers = .ok (table.rowAt row, found) ∧
            found.ReadyFor table) ∨
      ∃ failure after later, layers.query row tape = (.error failure, after, later) ∧
        after.ReadyFor table ∧ Layer.Refusal row tape layers.active failure := by
  have total := ready.total
  rcases askSlots_cases (ready.tile_hasNumbersLeft left) row tape with
    ⟨parts, slots, later, answers, asks, same, asked⟩ |
    ⟨failure, slots, later, refused, tileAfter, why⟩
  · set after : Layers := { layers with slots } with isAfter
    have asked : AskedSlots table row 0 after.slots parts answers after.total := asked
    obtain ⟨pending, found, isPending, reconstructed, readyFound⟩ :=
      asked.reconstruct total ready.rowLength (total ▸ inside)
    have filled := ne_nil_of_pendingOf isPending
    refine Or.inl ⟨⟨layeredQuery (parts.filterMap id) Sides.left,
      layeredQuery (parts.filterMap id) Sides.right⟩, pending, after, later, ?_,
      ⟨asked.tile, total, ready.rowLength⟩, fun servers left right =>
        ⟨⟨answers.map Sides.left, answers.map Sides.right⟩, found, ?_, ?_, reconstructed,
          readyFound⟩⟩
    · have notEmpty : ¬ (parts.filterMap id).isEmpty = true := by
        rw [List.isEmpty_iff]
        exact filled
      rw [query, asks]
      simp only [bind, Except.bind, if_neg notEmpty, isPending]
      rfl
    · exact asked.layerAnswer total.le filled left fun _ _ _ both => both.1
    · exact asked.layerAnswer total.le filled right fun _ _ _ both => both.2
  · refine Or.inr ⟨failure, { layers with slots }, later, ?_, ⟨tileAfter, total, ready.rowLength⟩,
      why⟩
    rw [query, refused]
    rfl

/-- On a fair tape a row that is covered is not refused. -/
theorem Covers.not_refusal (covers : layers.Covers row) {tape : Tape} (fair : tape.Fair)
    {failure : Failure} : ¬ Layer.Refusal row tape layers.active failure := by
  rintro (⟨layer, member, -, holds, missed, -⟩ | ⟨-, unfair⟩)
  · exact missed (covers layer member holds)
  · exact unfair fair

theorem ReadyFor.exists_query (ready : layers.ReadyFor table) (left : layers.HasNumbersLeft)
    (inside : row < table.rowCount) (covers : layers.Covers row) {tape : Tape} (fair : tape.Fair) :
    ∃ queries pending after later,
      layers.query row tape = (.ok (queries, pending), after, later) := by
  rcases ready.query_cases left inside tape with
    ⟨queries, pending, after, later, made, -⟩ | ⟨failure, after, later, refused, -, why⟩
  · exact ⟨queries, pending, after, later, made⟩
  · exact absurd why (covers.not_refusal fair)

/-! ## Three rows and one more -/

/-- Layers whose larger slot has three rows, which are read with punctured sets, and whose smaller
one is vacant. -/
def ofThree (client : Option Client) (rowLength : Nat) (pending : Option Nat) : Layers where
  scheme := .puncturedSets
  smallest := 1
  smallest_pos := Nat.one_pos
  total := 3
  rowLength := rowLength
  slots := [⟨3, some ⟨0, 3, .puncturedSets, client⟩⟩, .vacant 1]
  pending := pending

/-- Layers whose smaller slot has got the row that was added to three others. -/
def ofFour (client : Client) (rowLength : Nat) : Layers :=
  { ofThree none rowLength none with
    total := 4
    slots := [⟨3, some ⟨0, 3, .puncturedSets, some client⟩⟩,
      ⟨1, some ⟨3, 1, .pointFunction, some (.pointFunction ⟨1, rowLength⟩)⟩⟩] }

theorem update_empty (rowLength : Nat) (tape : Tape) :
    (empty .puncturedSets 1 Nat.one_pos).update 3 rowLength tape =
      (some ⟨.puncturedSets tape.label.1 setMultiplier, 0, 3⟩, ofThree none rowLength (some 0),
        tape.label.2) := by
  set counted := (empty .puncturedSets 1 Nat.one_pos).counting 3 rowLength
  have scheme : counted.schemeFor false 3 = .puncturedSets := by
    rw [schemeFor, show supportsSets 3 = true by decide +kernel]
    rfl
  have placed : counted.place 3 = (0, ofThree none rowLength none) := by
    show (0, { counted with
      slots := putLayer [.vacant 3, .vacant 1] 0 (counted.lastRows 3 false) }) =
        (0, ofThree none rowLength none)
    rw [lastRows, scheme]
    rfl
  rw [update_eq, placed]
  rfl

theorem installHint_ofThree {sums : SetSums} {tape later : Tape} {client : PuncturedClient}
    (rowCount : sums.shape.rowCount = 3)
    (made : PuncturedClient.ofHint sums tape = .ok (client, later)) (rowLength : Nat) :
    (ofThree none rowLength (some 0)).installHint (.puncturedSets sums) tape =
      (.ok (), ofThree (some (.puncturedSets client)) rowLength none, later) := by
  have isClient : Client.ofHint (.puncturedSets sums) tape =
      .ok (.puncturedSets client, later) := by
    simp only [Client.ofHint, Functor.map, StateT.map, made, bind, Except.bind]
    rfl
  simp [installHint, ofThree, Hint.shape, rowCount, isClient, install]

theorem missing_ofThree (client : Client) (rowLength : Nat) (tape : Tape) :
    (ofThree (some client) rowLength none).missing tape =
      (none, ofThree (some client) rowLength none, tape) := rfl

theorem update_ofThree (client : Client) (rowLength : Nat) (tape : Tape) :
    (ofThree (some client) rowLength none).update 1 rowLength tape =
      (none, ofFour client rowLength, tape) := rfl

/-- A hint that is asked for with the first words of the tape in a circle is given and accepted, and
there are numbers for two queries. -/
theorem exists_hint_ofThree (rowCount : table.rowCount = 3) :
    ∃ hint client later,
      table.layerHint ⟨.puncturedSets Tape.circle.label.1 setMultiplier, 0, 3⟩ = .ok hint ∧
      (ofThree none table.rowLength (some 0)).installHint hint Tape.circle.label.2 =
        (.ok (), ofThree (some (.puncturedSets client)) table.rowLength none, later) ∧
      later.word = Tape.circle.word ∧ client.current.tree.domain = 3 ∧
      client.current.tree.size = 2 ∧ client.HasNumbersFor 2 := by
  obtain ⟨range, given, -, -, isCount⟩ := Table.exists_slice (Nat.zero_le 3) rowCount.ge
  have isCount : range.rowCount = 3 := isCount
  obtain ⟨sums, client, later, isHint, made, domain, size, left⟩ :=
    PuncturedClient.exists_ofHint_of_circle isCount
  obtain ⟨-, -, -, -, -, -, shape, -, -⟩ := Table.of_setSums isHint
  obtain ⟨-, -, -, -, -, -, -, -, word⟩ := PuncturedClient.of_ofHint made
  have three : sums.shape.rowCount = 3 := by
    rw [shape]
    exact isCount
  refine ⟨.puncturedSets sums, client, later, ?_, installHint_ofThree three made _, word, domain,
    size, left⟩
  rw [Table.layerHint, if_neg (by decide)]
  simp only [given, bind, Except.bind, Table.hint, isHint]
  rfl

theorem hasNumbersLeft_ofThree {client : PuncturedClient} {rowLength count : Nat}
    {pending : Option Nat}
    (isThree : layers = ofThree (some (.puncturedSets client)) rowLength pending)
    (numbers : client.HasNumbersFor (count + 1)) : layers.HasNumbersLeft := by
  rw [isThree]
  intro layer member other isOther
  obtain rfl := List.mem_singleton.mp member
  cases isOther
  exact numbers.hasNumbersLeft

theorem hasNumbersLeft_ofFour {client : Client} (left : client.HasNumbersLeft) (rowLength : Nat) :
    (ofFour client rowLength).HasNumbersLeft := by
  intro layer member other isOther
  rcases List.mem_cons.mp member with rfl | member
  · cases isOther
    exact left
  · obtain rfl := List.mem_singleton.mp member
    cases isOther
    trivial

/-- One of three rows is covered. -/
theorem exists_covered_ofThree {client : Client} {rowLength : Nat} {pending : Option Nat}
    (isThree : layers = ofThree (some client) rowLength pending) (ready : layers.ReadyFor table)
    (left : layers.HasNumbersLeft) : ∃ covered < 3, layers.Covers covered := by
  subst isThree
  have held : (ofThree (some client) rowLength pending).slots[0]? = some _ := rfl
  obtain ⟨isReady, -⟩ := ready.tile.of_active? held rfl
  obtain ⟨row, holds, covers⟩ := isReady.exists_covers (left _ List.mem_cons_self) three_pos
  refine ⟨row, ?_, fun layer member _ => ?_⟩
  · rw [Layer.holds, Bool.and_eq_true, decide_eq_true_eq, decide_eq_true_eq] at holds
    exact holds.2
  · rwa [List.mem_singleton.mp member]

/-- One of the first three rows is covered, and so is the fourth, which is not read with punctured
sets. -/
theorem exists_covered_ofFour {client : Client} {rowLength : Nat}
    (ready : (ofFour client rowLength).ReadyFor table)
    (left : (ofFour client rowLength).HasNumbersLeft) :
    ∃ covered < 3, (ofFour client rowLength).Covers covered ∧
      (ofFour client rowLength).Covers 3 := by
  have held : (ofFour client rowLength).slots[0]? = some _ := rfl
  obtain ⟨isReady, -⟩ := ready.tile.of_active? held rfl
  obtain ⟨row, holds, covers⟩ := isReady.exists_covers (left _ List.mem_cons_self) three_pos
  rw [Layer.holds, Bool.and_eq_true, decide_eq_true_eq, decide_eq_true_eq] at holds
  have inside : row < 3 := holds.2
  refine ⟨row, inside, fun layer member isHeld => ?_, fun layer member isHeld => ?_⟩
  · rcases List.mem_cons.mp member with rfl | member
    · exact covers
    · obtain rfl := List.mem_singleton.mp member
      rw [Layer.holds, Bool.and_eq_true, decide_eq_true_eq] at isHeld
      exact absurd inside (Nat.not_lt.mpr isHeld.1)
  · rcases List.mem_cons.mp member with rfl | member
    · exact absurd isHeld Bool.false_ne_true
    · obtain rfl := List.mem_singleton.mp member
      intro other isOther
      cases isOther
      trivial

end Layers

end PrivateRetrieval
