/-
# What queries look like

A server that compares the queries of a client should not learn from their sizes which row is
meant. The form of a query is all that is left of it without the labels, bits and numbers in it: its
scheme, and how large its parts are. Whatever a client is asked for, and whatever it draws, the form
of its queries is its own. For the punctured scheme this takes that both generators of a client make
sets of one shape, so that a stored set that is punctured looks like a fresh one. Every call keeps
this, also one with answers or hints that no honest server would give.

A round asks all layers that have rows, the one that is meant as well as the others, so the form of
a layered query is that of the layers.
-/

import PrivateRetrieval.Proofs.Hints.Exposure
import PrivateRetrieval.Proofs.Layers.Geometry
import PrivateRetrieval.Proofs.Layers.Routing
import PrivateRetrieval.Proofs.Retrieval.ShapeQueries

namespace PrivateRetrieval

/-- What a query looks like: its scheme, and how large its parts are. -/
inductive QueryForm
  | puncturedSets (domain size labels : Nat)
  | pointFunction (corrections : Nat)
  | matrix (lines : Nat)
  | plain
  deriving DecidableEq, Repr

namespace Query

/-- The form of a query. -/
def form : Query → QueryForm
  | .puncturedSets query =>
      .puncturedSets query.set.domain query.set.size query.set.copath.length
  | .pointFunction share => .pointFunction share.corrections.length
  | .matrix lines => .matrix lines.length
  | .plain _ => .plain

/-- The numbers in a query for a punctured set are within its sizes: the hole is a leaf of the tree,
and the other row is in the domain. -/
def InBounds : Query → Prop
  | .puncturedSets query =>
      query.set.hole < query.set.size + 1 ∧ query.extra < query.set.domain
  | .pointFunction _ | .matrix _ | .plain _ => True

end Query

/-! ## Clients -/

/-- Both generators of a client make sets of one shape. -/
def PuncturedClient.Coherent (client : PuncturedClient) : Prop :=
  client.current.tree = client.hinted.tree

namespace PuncturedClient

variable {client after : PuncturedClient} {row : Nat} {tape later : Tape}
  {queries : Sides SetQuery}

theorem coherent_ofHint {sums : SetSums} (made : ofHint sums tape = .ok (client, later)) :
    client.Coherent := by
  obtain ⟨generator, sets, isGenerator, isDrawn, isCurrent, -⟩ := of_ofHint made
  obtain ⟨-, -, -, -, isTree⟩ := SetGenerator.of_make isGenerator
  obtain ⟨-, -, -, -, isCurrentTree⟩ := SetGenerator.of_make isCurrent
  obtain ⟨tree, -, -⟩ := SetGenerator.of_freshMany isDrawn
  exact (Except.ok.inj (isCurrentTree.symm.trans isTree)).trans tree.symm

theorem Asks.coherent {pending : Option PendingSet} (asks : client.Asks row queries pending after)
    (coherent : client.Coherent) : after.Coherent := by
  cases asks with
  | fresh isFresh => exact (SetGenerator.of_freshWith isFresh).1.trans coherent
  | refresh isFresh => exact (SetGenerator.of_freshWith isFresh).1.trans coherent

theorem Coherent.query (coherent : client.Coherent) (row : Nat) (tape : Tape) :
    (client.query row tape).2.1.Coherent := by
  rcases made : client.query row tape with ⟨failure | ⟨queries, pending⟩, after, later⟩
  · obtain ⟨owner, rfl⟩ := exists_owner_of_refused made
    exact coherent
  · exact (asks_of_query made).coherent coherent

theorem Coherent.dummy (coherent : client.Coherent) (tape : Tape) :
    (client.dummy tape).2.1.Coherent := by
  rcases made : client.dummy tape with ⟨failure | queries, after, later⟩
  · rw [PuncturedClient.dummy] at made
    split at made
    · cases made
    · cases made
      exact coherent
  · exact (asks_of_dummy made).coherent coherent

theorem Coherent.reconstruct (coherent : client.Coherent) {pending : PendingSet}
    {answers : Sides SetAnswer} {found : Row}
    (made : client.reconstruct pending answers = .ok (found, after)) : after.Coherent := by
  obtain ⟨hinted, current, -⟩ := of_reconstruct made
  rw [PuncturedClient.Coherent, hinted, current]
  exact coherent

/-- The elements of every stored set are in the domain of the later generator too. -/
theorem Coherent.lt_of_mem_rebuild (coherent : client.Coherent) (handle : SetHandle)
    {element : Nat} (member : element ∈ (client.rebuild handle).elements) :
    element < client.current.tree.domain := by
  rw [rebuild, generatorOf] at member
  split at member
  · rw [coherent]
    exact (SetGenerator.owns_rebuild _ handle).lt_domain member
  · exact (SetGenerator.owns_rebuild _ handle).lt_domain member

/-- The form of the client's queries. -/
def form (client : PuncturedClient) : QueryForm :=
  .puncturedSets client.current.tree.domain (client.current.tree.size - 1)
    client.current.tree.height

/-- Whichever set is punctured, and wherever, the query has the form of the client. -/
theorem form_of_ask {part : QueryPart KeyedSet} {query : SetQuery}
    (asked : client.ask part = .ok query)
    (inside : part.extra < client.current.tree.domain) :
    (Query.puncturedSets query).form = client.form ∧ (Query.puncturedSets query).InBounds := by
  simp only [ask, SetGenerator.puncture, SetTree.puncture, bind, Except.bind] at asked
  split at asked
  · cases asked
  rename_i punctured isPunctured
  cases asked
  split at isPunctured
  · cases isPunctured
  rename_i hole isHole
  split at isPunctured
  · cases isPunctured
  rename_i copath isCopath
  cases isPunctured
  split at isCopath
  · rename_i isLeaf
    cases isCopath
    have size : client.current.tree.size - 1 + 1 = client.current.tree.size :=
      Nat.sub_add_cancel client.current.tree.size_pos
    refine ⟨?_, size.symm ▸ isLeaf, inside⟩
    rw [Query.form, form, LabelTree.length_copath]
  · cases isCopath

/-- Queries of a client of the punctured scheme, in all three cases. -/
theorem form_of_query (coherent : client.Coherent) {pending : PendingSet}
    (made : client.query row tape = (.ok (queries, pending), after, later)) :
    ∀ query ∈ (queries.map Query.puncturedSets).toList,
      query.form = client.form ∧ query.InBounds := by
  obtain ⟨owner, slot, current, -, isDrawn⟩ := of_query made
  obtain ⟨-, -, case, fresh, set, first, second, -, -, isFresh, isSet, -, isLeft, isRight, isFirst,
    isSecond⟩ := of_drawQuery isDrawn
  obtain ⟨stored, -, rfl⟩ := of_setAt isSet
  have owns := (SetGenerator.of_freshWith isFresh).2.2
  have firstInside : first < client.current.tree.domain := owns.lt_domain isFirst
  have secondInside : second < client.current.tree.domain := by
    cases case with
    | refresh => exact coherent.lt_of_mem_rebuild stored.handle isSecond
    | extraRight => exact owns.lt_domain isSecond
    | extraLeft => exact owns.lt_domain isSecond
  have left : (Query.puncturedSets queries.left).form = client.form ∧
      (Query.puncturedSets queries.left).InBounds := by
    refine form_of_ask isLeft ?_
    cases case with
    | refresh => exact firstInside
    | extraRight => exact secondInside
    | extraLeft => exact firstInside
  have right : (Query.puncturedSets queries.right).form = client.form ∧
      (Query.puncturedSets queries.right).InBounds := by
    refine form_of_ask isRight ?_
    cases case with
    | refresh => exact secondInside
    | extraRight => exact firstInside
    | extraLeft => exact secondInside
  exact List.forall_mem_cons.mpr ⟨left, List.forall_mem_singleton.mpr right⟩

theorem form_of_dummy (made : client.dummy tape = (.ok queries, after, later)) :
    ∀ query ∈ (queries.map Query.puncturedSets).toList,
      query.form = client.form ∧ query.InBounds := by
  rw [PuncturedClient.dummy] at made
  split at made
  · rename_i isDrawn
    rw [drawDummy] at isDrawn
    obtain ⟨⟨fresh, _⟩, isFresh, drawExtra⟩ := Drawing.of_liftM_bind_eq_ok isDrawn
    obtain ⟨extra, _, isExtra, askBoth⟩ := Drawing.of_bind_eq_ok drawExtra
    obtain ⟨query, isQuery, last⟩ := Drawing.of_liftM_bind_eq_ok askBoth
    cases last
    cases made
    have owns := (SetGenerator.of_freshWith isFresh).2.2
    have formed := form_of_ask isQuery (owns.lt_domain (Drawing.of_memberExcept isExtra).2.1)
    exact List.forall_mem_cons.mpr ⟨formed, List.forall_mem_singleton.mpr formed⟩
  · cases made

end PuncturedClient

namespace Client

/-- The generators of a client of the punctured scheme make sets of one shape. -/
def Coherent : Client → Prop
  | .puncturedSets inner => inner.Coherent
  | .pointFunction _ | .matrix _ | .plain _ => True

/-- The form of a client's queries. -/
def form : Client → QueryForm
  | .puncturedSets inner => inner.form
  | .pointFunction shape => .pointFunction (treeHeight shape.rowCount)
  | .matrix shape => .matrix shape.grid.height
  | .plain _ => .plain

/-- Queries for both servers that have the form of a client. -/
def Forms (client : Client) (queries : Sides Query) : Prop :=
  ∀ query ∈ queries.toList, query.form = client.form ∧ query.InBounds

theorem forms_of_both {client : Client} {queries : Sides Query}
    (left : queries.left.form = client.form ∧ queries.left.InBounds)
    (right : queries.right.form = client.form ∧ queries.right.InBounds) :
    client.Forms queries :=
  List.forall_mem_cons.mpr ⟨left, List.forall_mem_singleton.mpr right⟩

theorem forms_sharesOf (shape : Shape) (row : Nat) (tape : Tape) :
    (pointFunction shape).Forms ((shape.sharesOf row tape).1.map Query.pointFunction) := by
  have length := Correction.length_alongPath ShareNode.expand row (treeHeight shape.rowCount)
  exact forms_of_both ⟨congrArg QueryForm.pointFunction (length _ _), trivial⟩
    ⟨congrArg QueryForm.pointFunction (length _ _), trivial⟩

theorem forms_selectionsOf (shape : Shape) (row : Nat) (tape : Tape) :
    (matrix shape).Forms ((shape.selectionsOf row tape).1.map Query.matrix) := by
  have left : (tape.coins shape.grid.height).1.length = shape.grid.height :=
    (Tape.coins_spec _ tape).1
  have right := (Shape.selectionsAround_spec (row / shape.grid.width)
    (tape.coins shape.grid.height).1).1.trans left
  exact forms_of_both ⟨congrArg QueryForm.matrix left, trivial⟩
    ⟨congrArg QueryForm.matrix right, trivial⟩

variable {client after : Client} {row : Nat} {tape later : Tape} {queries : Sides Query}

/-- Queries for a row have the form of the client. -/
theorem forms_of_query (coherent : client.Coherent) {pending : Pending}
    (made : client.query row tape = (.ok (queries, pending), after, later)) :
    client.Forms queries := by
  cases client with
  | puncturedSets inner =>
      rcases asked : inner.query row tape with ⟨failure | ⟨sides, waits⟩, next, last⟩
      · rw [query, asked] at made
        cases made
      · rw [query, asked] at made
        cases made
        exact PuncturedClient.form_of_query coherent asked
  | pointFunction shape =>
      simp only [query] at made
      split at made
      · cases made
      · cases made
        exact forms_sharesOf shape row tape
  | matrix shape =>
      simp only [query] at made
      split at made
      · cases made
      · cases made
        exact forms_selectionsOf shape row tape
  | plain shape =>
      simp only [query] at made
      split at made
      · cases made
      · cases made
        exact forms_of_both ⟨rfl, trivial⟩ ⟨rfl, trivial⟩

/-- Queries for nothing in particular have the same form. -/
theorem forms_of_dummy (made : client.dummy tape = (.ok queries, after, later)) :
    client.Forms queries := by
  cases client with
  | puncturedSets inner =>
      rcases asked : inner.dummy tape with ⟨failure | sides, next, last⟩
      · rw [dummy, asked] at made
        cases made
      · rw [dummy, asked] at made
        cases made
        exact PuncturedClient.form_of_dummy asked
  | pointFunction shape =>
      cases made
      exact forms_sharesOf shape 0 tape
  | matrix shape =>
      simp only [dummy] at made
      split at made
      · rename_i noRows
        have noLines : shape.grid.height = 0 := by
          rw [Shape.grid, if_pos (Or.inl noRows)]
          exact noRows
        cases made
        exact forms_of_both ⟨congrArg QueryForm.matrix noLines.symm, trivial⟩
          ⟨congrArg QueryForm.matrix noLines.symm, trivial⟩
      · cases made
        exact forms_selectionsOf shape 0 tape
  | plain shape =>
      cases made
      exact forms_of_both ⟨rfl, trivial⟩ ⟨rfl, trivial⟩

theorem coherent_withoutHint {scheme : Scheme} {shape : Shape}
    (made : withoutHint scheme shape = .ok client) : client.Coherent := by
  cases scheme with
  | puncturedSets => cases made
  | pointFunction => cases made; trivial
  | matrix => cases made; trivial
  | plain => cases made; trivial

theorem coherent_ofHint {hint : Hint} (made : ofHint hint tape = .ok (client, later)) :
    client.Coherent := by
  cases hint with
  | puncturedSets sums =>
      cases isInner : PuncturedClient.ofHint sums tape with
      | error failure =>
          simp only [ofHint, Functor.map, StateT.map, bind, Except.bind, isInner] at made
          cases made
      | ok result =>
          simp only [ofHint, Functor.map, StateT.map, bind, Except.bind, isInner] at made
          cases made
          exact PuncturedClient.coherent_ofHint isInner
  | pointFunction shape => cases made; trivial
  | matrix shape => cases made; trivial
  | plain shape => cases made; trivial

theorem Coherent.query (coherent : client.Coherent) (row : Nat) (tape : Tape) :
    (client.query row tape).2.1.Coherent := by
  cases client with
  | puncturedSets inner => exact PuncturedClient.Coherent.query coherent row tape
  | pointFunction shape => simp only [Client.query]; split <;> trivial
  | matrix shape => simp only [Client.query]; split <;> trivial
  | plain shape => simp only [Client.query]; split <;> trivial

theorem Coherent.dummy (coherent : client.Coherent) (tape : Tape) :
    (client.dummy tape).2.1.Coherent := by
  cases client with
  | puncturedSets inner => exact PuncturedClient.Coherent.dummy coherent tape
  | pointFunction shape => trivial
  | matrix shape => simp only [Client.dummy]; split <;> trivial
  | plain shape => trivial

theorem Coherent.reconstruct (coherent : client.Coherent) {pending : Pending}
    {answers : Sides Answer} {found : Row}
    (made : client.reconstruct pending answers = .ok (found, after)) : after.Coherent := by
  rw [Client.reconstruct.eq_def] at made
  split at made
  · rename_i inner waits left right
    cases isInner : inner.reconstruct waits ⟨left, right⟩ with
    | error failure =>
        simp only [bind, Except.bind, isInner] at made
        cases made
    | ok result =>
        simp only [bind, Except.bind, isInner] at made
        cases made
        exact PuncturedClient.Coherent.reconstruct coherent isInner
  · simp only [bind, Except.bind] at made
    split at made
    · cases made
    · cases made
      trivial
  · simp only [bind, Except.bind] at made
    split at made
    · cases made
    · cases made
      trivial
  · split at made
    · cases made
      trivial
    · cases made
  · cases made

end Client

/-! ## Layers -/

/-- What a layer was asked has its range, and the form of its client. -/
structure Layer.Formed (layer : Layer) (part : LayerPart) : Prop where
  first : part.first = layer.first
  last : part.last = layer.last
  forms : ∃ client, layer.client = some client ∧ client.Forms part.queries

namespace Layers

/-- Every client of some slots has a property. -/
def AllClients (good : Client → Prop) (slots : List Slot) : Prop :=
  ∀ slot ∈ slots, ∀ layer, slot.layer = some layer → ∀ client, layer.client = some client →
    good client

variable {slots : List Slot} {layers : Layers}

theorem allClients_cons_iff {good : Client → Prop} {slot : Slot} :
    AllClients good (slot :: slots) ↔ AllClients good [slot] ∧ AllClients good slots := by
  rw [AllClients, List.forall_mem_cons, AllClients, List.forall_mem_singleton]
  rfl

theorem AllClients.install {good : Client → Prop} (all : AllClients good slots) (index : Nat)
    {client : Client} (isGood : good client) : AllClients good (install slots index client) := by
  induction slots generalizing index with
  | nil => rwa [Layers.install, List.modify_nil]
  | cons slot rest ih =>
      obtain ⟨head, tail⟩ := allClients_cons_iff.mp all
      cases index with
      | zero =>
          rw [Layers.install, List.modify_zero_cons]
          refine allClients_cons_iff.mpr ⟨List.forall_mem_singleton.mpr ?_, tail⟩
          intro layer isLayer other isOther
          obtain ⟨before, -, rfl⟩ := Option.map_eq_some_iff.mp isLayer
          exact Option.some.inj isOther ▸ isGood
      | succ index =>
          rw [Layers.install, List.modify_succ_cons]
          exact allClients_cons_iff.mpr ⟨head, ih tail index⟩

/-- A layer that is made anew has no client yet. -/
theorem AllClients.putLayer {good : Client → Prop} (all : AllClients good slots) (index : Nat)
    {layer : Layer} (unready : layer.client = none) :
    AllClients good (putLayer slots index layer) := by
  intro slot member
  obtain ⟨place, inside, rfl⟩ := List.mem_mapIdx.mp member
  split
  · exact all _ (List.getElem_mem inside)
  · split
    · intro other isLayer client isClient
      cases isLayer
      rw [unready] at isClient
      cases isClient
    · intro other isLayer
      cases isLayer

theorem AllClients.place {good : Client → Prop} (all : AllClients good layers.slots)
    (newRows : Nat) : AllClients good (layers.place newRows).2.slots := by
  rw [Layers.place]
  split
  · exact all.putLayer _ rfl
  · refine AllClients.putLayer (fun slot member => ?_) _ rfl
    obtain ⟨capacity, -, rfl⟩ := List.mem_map.mp member
    intro layer isLayer
    cases isLayer

theorem AllClients.requestHint (all : AllClients Client.Coherent layers.slots) (index : Nat)
    (tape : Tape) : AllClients Client.Coherent (layers.requestHint index tape).2.1.slots := by
  rw [Layers.requestHint]
  split
  · exact all
  · split
    · rename_i made
      exact all.install index (Client.coherent_withoutHint made)
    · exact all

theorem AllClients.requestFirst (all : AllClients Client.Coherent layers.slots)
    (indices : List Nat) (tape : Tape) :
    AllClients Client.Coherent (requestFirst indices layers tape).2.1.slots := by
  induction indices generalizing layers tape with
  | nil => exact all
  | cons index rest ih =>
      have requested := all.requestHint index tape
      rw [Layers.requestFirst]
      split
      · split
        · rename_i isRequest
          rwa [isRequest] at requested
        · rename_i isRequest
          rw [isRequest] at requested
          exact ih requested _
      · exact ih all tape

theorem AllClients.installHint (all : AllClients Client.Coherent layers.slots) (hint : Hint)
    (tape : Tape) : AllClients Client.Coherent (layers.installHint hint tape).2.1.slots := by
  rw [Layers.installHint]
  split
  · exact all
  · dsimp only
    split
    · exact all
    · split
      · exact all
      · split
        · exact all
        · rename_i made
          exact all.install _ (Client.coherent_ofHint made)

theorem AllClients.askLayer {layer : Layer}
    (coherent : ∀ client, layer.client = some client → client.Coherent) (row : Nat) (tape : Tape) :
    ∀ client, (askLayer row layer tape).2.1.client = some client → client.Coherent := by
  rw [Layers.askLayer]
  split
  · exact coherent
  · rename_i client isClient
    have isCoherent := coherent client isClient
    dsimp only
    split
    · intro after isAfter
      exact Option.some.inj isAfter ▸ isCoherent.query _ tape
    · intro after isAfter
      exact Option.some.inj isAfter ▸ isCoherent.dummy tape

theorem AllClients.askSlots (all : AllClients Client.Coherent slots) (row : Nat) (tape : Tape) :
    AllClients Client.Coherent (askSlots row slots tape).2.1 := by
  induction slots generalizing tape with
  | nil => exact all
  | cons slot rest ih =>
      obtain ⟨head, tail⟩ := allClients_cons_iff.mp all
      rw [Layers.askSlots]
      split
      · exact allClients_cons_iff.mpr ⟨head, ih tail tape⟩
      · rename_i layer active
        have asked : AllClients Client.Coherent
            [{ slot with layer := some (Layers.askLayer row layer tape).2.1 }] := by
          refine List.forall_mem_singleton.mpr fun other isOther => ?_
          exact Option.some.inj isOther ▸ AllClients.askLayer
            (head slot List.mem_cons_self layer (Slot.of_active? active).1) row tape
        dsimp only
        split
        · exact allClients_cons_iff.mpr ⟨asked, tail⟩
        · exact allClients_cons_iff.mpr ⟨asked, ih tail _⟩

theorem AllClients.reconstruct (all : AllClients Client.Coherent layers.slots) {after : Layers}
    {pending : PendingLayer} {answers : Sides (List Answer)} {found : Row}
    (made : layers.reconstruct pending answers = .ok (found, after)) :
    AllClients Client.Coherent after.slots := by
  rw [Layers.reconstruct] at made
  split at made
  · rename_i left right _ _
    split at made
    · cases made
    · rename_i client isClient
      obtain ⟨layer, isLayer, isClient⟩ := Option.bind_eq_some_iff.mp isClient
      obtain ⟨slot, isSlot, isLayer⟩ := Option.bind_eq_some_iff.mp isLayer
      have coherent := all slot (List.mem_of_getElem? isSlot) layer isLayer client isClient
      cases result : client.reconstruct pending.pending ⟨left, right⟩ with
      | error failure =>
          rw [result] at made
          cases made
      | ok given =>
          rw [result] at made
          cases made
          exact all.install _ (coherent.reconstruct result)
  · cases made

/-- The clients of the layers make sets of one shape each, whatever was done with the layers. -/
theorem AllClients.perform (all : AllClients Client.Coherent layers.slots)
    (operation : Operation) : AllClients Client.Coherent (operation.perform layers).slots := by
  cases operation with
  | update newRows rowLength tape =>
      have allCounted : AllClients Client.Coherent (layers.counting newRows rowLength).slots := all
      exact (allCounted.place newRows).requestHint _ tape
  | missing tape =>
      let idle : Layers := { layers with pending := none }
      have allIdle : AllClients Client.Coherent idle.slots := all
      exact allIdle.requestFirst _ tape
  | installHint hint tape => exact all.installHint hint tape
  | query row tape => exact all.askSlots row tape
  | reconstruct pending answers =>
      rw [Operation.perform]
      split
      · rename_i made
        exact all.reconstruct made
      · exact all
  | reset => exact List.forall_mem_nil _

theorem allClients_afterAll (all : AllClients Client.Coherent layers.slots)
    (operations : List Operation) :
    AllClients Client.Coherent (layers.afterAll operations).slots := by
  induction operations generalizing layers with
  | nil => exact all
  | cons operation rest ih => exact ih (all.perform operation)

/-! ## Rounds -/

/-- A layer that is asked looks the same whether or not it has the row. -/
theorem formed_of_askLayer {row : Nat} {layer after : Layer} {tape later : Tape}
    {part : LayerPart} (coherent : ∀ client, layer.client = some client → client.Coherent)
    (asked : askLayer row layer tape = (.ok part, after, later)) : layer.Formed part := by
  rw [askLayer] at asked
  split at asked
  · cases asked
  rename_i client isClient
  dsimp only at asked
  split at asked
  · rcases made : client.query (row - layer.first) tape with
      ⟨failure | ⟨queries, waits⟩, next, last⟩
    · rw [made] at asked
      cases asked
    · rw [made] at asked
      cases asked
      exact ⟨rfl, rfl, client, isClient, Client.forms_of_query (coherent client isClient) made⟩
  · rcases made : client.dummy tape with ⟨failure | queries, next, last⟩
    · rw [made] at asked
      cases asked
    · rw [made] at asked
      cases asked
      exact ⟨rfl, rfl, client, isClient, Client.forms_of_dummy made⟩

/-- The layers that have rows are asked in order, each in its form. -/
theorem formed_of_askSlots {row : Nat} {after : List Slot} {tape later : Tape}
    {parts : List (Option LayerPart)} (all : AllClients Client.Coherent slots)
    (asked : askSlots row slots tape = (.ok parts, after, later)) :
    List.Forall₂ Layer.Formed (slots.filterMap Slot.active?) (parts.filterMap id) := by
  induction slots generalizing tape parts after later with
  | nil =>
      cases asked
      exact .nil
  | cons slot rest ih =>
      obtain ⟨head, tail⟩ := allClients_cons_iff.mp all
      rw [askSlots] at asked
      split at asked
      · rename_i inactive
        rcases others : askSlots row rest tape with ⟨failure | parts, next, last⟩
        · rw [others] at asked
          cases asked
        · rw [others] at asked
          cases asked
          rw [List.filterMap_cons_none inactive, List.filterMap_cons_none rfl]
          exact ih tail others
      · rename_i layer active
        rcases isPart : askLayer row layer tape with ⟨failure | part, afterLayer, between⟩
        · rw [isPart] at asked
          cases asked
        · rw [isPart] at asked
          rcases others : askSlots row rest between with ⟨failure | parts, next, last⟩
          · simp only [others] at asked
            cases asked
          · simp only [others] at asked
            cases asked
            rw [List.filterMap_cons_some active]
            have coherent := head slot List.mem_cons_self layer (Slot.of_active? active).1
            exact .cons (formed_of_askLayer coherent isPart) (ih tail others)

/-- The boundaries of the layers that have rows. -/
def activeBoundaries (layers : Layers) : List Nat :=
  layers.active.map Layer.first ++ (layers.active.getLast?.map Layer.last).toList

/-- The forms of the clients of the layers that have rows. -/
def activeForms (layers : Layers) : List (Option QueryForm) :=
  layers.active.map fun layer => layer.client.map Client.form

/-- A layered query that looks like a round over the layers. -/
structure Forms (layers : Layers) (layered : LayeredQuery) : Prop where
  boundaries : layered.boundaries = layers.activeBoundaries
  forms : layered.queries.map (fun query => some query.form) = layers.activeForms
  inBounds : ∀ query ∈ layered.queries, query.InBounds

theorem forall_mem_of_forall₂ {α β : Type} {related : α → β → Prop} {good : β → Prop}
    (agree : ∀ first second, related first second → good second) {firsts : List α}
    {seconds : List β} (all : List.Forall₂ related firsts seconds) :
    ∀ second ∈ seconds, good second := by
  induction all with
  | nil => exact fun second member => nomatch member
  | cons first _ ih => exact List.forall_mem_cons.mpr ⟨agree _ _ first, ih⟩

theorem map_eq_of_forall₂ {α β γ : Type} {related : α → β → Prop} {f : α → γ} {g : β → γ}
    (agree : ∀ first second, related first second → g second = f first) {firsts : List α}
    {seconds : List β} (all : List.Forall₂ related firsts seconds) :
    seconds.map g = firsts.map f := by
  induction all with
  | nil => rfl
  | cons first _ ih => rw [List.map_cons, List.map_cons, agree _ _ first, ih]

/-- A round over the layers, put together for one server. -/
theorem forms_of_formed {parts : List LayerPart}
    (formed : List.Forall₂ Layer.Formed layers.active parts) {side : Sides Query → Query}
    (isSide : ∀ queries : Sides Query, side queries ∈ queries.toList) :
    layers.Forms (layeredQuery parts side) where
  boundaries := by
    have firsts : parts.map LayerPart.first = layers.active.map Layer.first :=
      map_eq_of_forall₂ (fun layer part asked => asked.first) formed
    have lasts : parts.map LayerPart.last = layers.active.map Layer.last :=
      map_eq_of_forall₂ (fun layer part asked => asked.last) formed
    rw [layeredQuery, Layers.boundaries, activeBoundaries, firsts, ← List.getLast?_map, lasts,
      List.getLast?_map]
  forms := by
    rw [layeredQuery, activeForms, List.map_map]
    refine map_eq_of_forall₂ (fun layer part asked => ?_) formed
    obtain ⟨client, isClient, forms⟩ := asked.forms
    rw [isClient, Option.map_some]
    exact congrArg some (forms _ (isSide part.queries)).1
  inBounds := by
    have all : ∀ part ∈ parts, (side part.queries).InBounds := by
      refine forall_mem_of_forall₂ (fun layer part asked => ?_) formed
      obtain ⟨client, -, forms⟩ := asked.forms
      exact (forms _ (isSide part.queries)).2
    intro query member
    obtain ⟨part, inParts, rfl⟩ := List.mem_map.mp member
    exact all part inParts

/-- A round over the layers, as both servers see it. -/
theorem forms_of_query (all : AllClients Client.Coherent layers.slots) {row : Nat}
    {tape later : Tape} {queries : Sides LayeredQuery} {pending : PendingLayer} {after : Layers}
    (made : layers.query row tape = (.ok (queries, pending), after, later)) :
    ∀ layered ∈ queries.toList, layers.Forms layered := by
  obtain ⟨parts, slots, asked, -, -, rfl⟩ := of_query made
  have formed := formed_of_askSlots all asked
  exact List.forall_mem_cons.mpr
    ⟨forms_of_formed formed fun queries => List.mem_cons_self,
      List.forall_mem_singleton.mpr
        (forms_of_formed formed fun queries => List.mem_cons_of_mem _ List.mem_cons_self)⟩

theorem coherent_afterAll (scheme : Scheme) {smallest : Nat} (smallest_pos : 0 < smallest)
    (operations : List Operation) :
    AllClients Client.Coherent
      ((empty scheme smallest smallest_pos).afterAll operations).slots := by
  refine allClients_afterAll ?_ operations
  exact List.forall_mem_nil _

/-- Two rounds over the same layers cannot be told apart by their sizes. Whatever was done with the
layers before, for any two rows and any two tapes, the four layered queries that the servers get
have the same boundaries, and at each place queries of the same form, in which the numbers are
within those sizes. -/
theorem form_independent_of_row (scheme : Scheme) {smallest : Nat} (smallest_pos : 0 < smallest)
    (operations : List Operation) {layers : Layers}
    (reached : layers = (empty scheme smallest smallest_pos).afterAll operations)
    {row other : Nat} {tape otherTape later otherLater : Tape}
    {queries otherQueries : Sides LayeredQuery} {pending otherPending : PendingLayer}
    {after otherAfter : Layers}
    (asked : layers.query row tape = (.ok (queries, pending), after, later))
    (askedOther : layers.query other otherTape =
      (.ok (otherQueries, otherPending), otherAfter, otherLater)) :
    ∀ layered ∈ queries.toList ++ otherQueries.toList,
      layered.boundaries = queries.left.boundaries ∧
      layered.queries.map Query.form = queries.left.queries.map Query.form ∧
      ∀ query ∈ layered.queries, query.InBounds := by
  have all : AllClients Client.Coherent layers.slots := by
    rw [reached]
    exact coherent_afterAll scheme smallest_pos operations
  have formed : ∀ layered ∈ queries.toList ++ otherQueries.toList, layers.Forms layered :=
    List.forall_mem_append.mpr ⟨forms_of_query all asked, forms_of_query all askedOther⟩
  have reference : layers.Forms queries.left := forms_of_query all asked _ List.mem_cons_self
  intro layered member
  have forms := formed layered member
  refine ⟨forms.boundaries.trans reference.boundaries.symm, ?_, forms.inBounds⟩
  apply List.map_injective_iff.mpr (Option.some_injective _)
  rw [List.map_map, List.map_map]
  exact forms.forms.trans reference.forms.symm

/-- A row of the first layer, which is read with punctured sets, and the row of the second one. -/
theorem form_of_two_layers :
    ∃ hint : Hint,
      let layers := (empty .puncturedSets 1 Nat.one_pos).afterAll
        [.update 3 1 .circle, .installHint hint Tape.circle.label.2, .update 1 1 .circle]
      layers.active.map (fun layer => (layer.scheme, layer.first, layer.count)) =
          [(.puncturedSets, 0, 3), (.pointFunction, 3, 1)] ∧
      ∃ row < 3, ∃ queries pending after later otherQueries otherPending otherAfter otherLater,
        layers.query row .circle = (.ok (queries, pending), after, later) ∧
        layers.query 3 .circle = (.ok (otherQueries, otherPending), otherAfter, otherLater) ∧
        queries.left.boundaries = [0, 3, 4] ∧ otherQueries.right.boundaries = [0, 3, 4] ∧
        queries.left.queries.map Query.form = [.puncturedSets 3 1 1, .pointFunction 0] ∧
        otherQueries.right.queries.map Query.form =
          [.puncturedSets 3 1 1, .pointFunction 0] := by
  let early : Table := ⟨1, #[[1], [2], [3]], by simp, fun _ => Nat.one_pos⟩
  let table : Table := ⟨1, #[[1], [2], [3], [4]], by simp, fun _ => Nat.one_pos⟩
  have continued : early.Precedes table := ⟨[[4]], rfl⟩
  obtain ⟨hint, client, later, row, installed, domain, size, -, -, inFirst, asks⟩ :=
    exists_inUse_ofFour rfl continued rfl
  set layers := ofFour (.puncturedSets client) table.rowLength
  have reached : layers = (empty .puncturedSets 1 Nat.one_pos).afterAll
      [.update 3 1 .circle, .installHint hint Tape.circle.label.2, .update 1 1 .circle] := by
    have installed : (installHint _ hint Tape.circle.label.2).2.1 = _ :=
      congrArg (fun made => made.2.1) installed
    simp only [afterAll, List.foldl_cons, List.foldl_nil, Operation.perform, update_empty]
    rw [installed]
    rfl
  obtain ⟨queries, pending, after, later, made⟩ := asks row List.mem_cons_self
  obtain ⟨otherQueries, otherPending, otherAfter, otherLater, otherMade⟩ :=
    asks 3 (List.mem_cons_of_mem _ List.mem_cons_self)
  obtain ⟨sameBoundaries, sameForms, -⟩ := form_independent_of_row .puncturedSets Nat.one_pos
    _ reached made otherMade otherQueries.right
    (List.mem_append_right _ (List.mem_cons_of_mem _ List.mem_cons_self))
  refine ⟨hint, ?_⟩
  rw [← reached]
  have coherent : AllClients Client.Coherent layers.slots := by
    rw [reached]
    exact coherent_afterAll .puncturedSets Nat.one_pos _
  have forms : layers.Forms queries.left := forms_of_query coherent made _ List.mem_cons_self
  have isForm : queries.left.queries.map Query.form =
      [.puncturedSets 3 1 1, .pointFunction 0] := by
    have ofClient : client.form = .puncturedSets 3 1 1 := by
      rw [PuncturedClient.form, SetTree.height, domain, size]
      rfl
    rw [← ofClient]
    apply List.map_injective_iff.mpr (Option.some_injective _)
    rw [List.map_map]
    exact forms.forms
  exact ⟨rfl, row, inFirst, queries, pending, after, later, otherQueries, otherPending, otherAfter,
    otherLater, made, otherMade, forms.boundaries, sameBoundaries.trans forms.boundaries, isForm,
    sameForms.trans isForm⟩

end Layers

end PrivateRetrieval
