/-
# The client of the punctured scheme

The client keeps the sum of the rows of many pseudorandom sets, as handles and hints. To read a row
it takes a stored set that contains the row, and a fresh set that contains it too. Each server gets
one of the two sets without one of its members, and one more row is asked for in the clear. A coin
picks one of three ways to do so, with such weights that what a server sees does not depend on the
row.

* Refresh: the right server gets the stored set without the row, which is what the hint of the set
  lacks. The left server gets the fresh set without the row; with the row added, its answer is the
  hint of the fresh set, which takes the place of the used one.
* Extra on the right, or on the left: both servers get the fresh set, one without the row and the
  other without another member, and that member's row comes back in the clear.

A set is given to the right server at most once if every refresh is answered before the next query
for the same set: the answer is what replaces it.
-/

import PrivateRetrieval.Random.Tape
import PrivateRetrieval.Retrieval.Message

namespace PrivateRetrieval

/-- A set whose rows' sum is known. -/
structure StoredSet where
  handle : SetHandle
  hint : Row
  deriving DecidableEq, Repr, Inhabited

/-- The three ways to ask for a row. -/
inductive QueryCase
  | refresh
  | extraRight
  | extraLeft
  deriving DecidableEq, Repr

/-- The case that a coin picks, for sets of a given size. Each of the two extra cases has one
chance less than a set has elements. -/
def QueryCase.ofCoin (setSize coin : Nat) : QueryCase :=
  if coin < setSize - 1 then .extraRight
  else if coin < 2 * (setSize - 1) then .extraLeft
  else .refresh

/-- What one server is asked for: the sum of a set without a member, and an extra row. -/
structure QueryPart (σ : Type) where
  set : σ
  without : Nat
  extra : Nat
  deriving DecidableEq, Repr

/-- What the two servers are asked for. The two members are drawn by the caller: the first one from
the fresh set without the row, the second one from `QueryCase.secondSource`. The definition does
not look into the sets. -/
def QueryCase.parts {σ : Type} (case : QueryCase) (row : Nat) (fresh stored : σ)
    (first second : Nat) : Sides (QueryPart σ) :=
  match case with
  | .refresh => ⟨⟨fresh, row, first⟩, ⟨stored, row, second⟩⟩
  | .extraRight => ⟨⟨fresh, first, second⟩, ⟨fresh, row, first⟩⟩
  | .extraLeft => ⟨⟨fresh, row, first⟩, ⟨fresh, first, second⟩⟩

/-- Where the second member is drawn from: a set, and the member that is excluded. -/
def QueryCase.secondSource {σ : Type} (case : QueryCase) (row : Nat) (fresh stored : σ)
    (first : Nat) : σ × Nat :=
  match case with
  | .refresh => (stored, row)
  | .extraRight | .extraLeft => (fresh, first)

/-- What the client remembers between a query and its answers. -/
inductive PendingSet
  /-- The set in a slot was used up, and the replacement takes its place. -/
  | refresh (slot : Nat) (replacement : KeyedSet)
  | extraRight
  | extraLeft
  deriving DecidableEq, Repr

/-- The case of a query that waits for its answers. -/
def PendingSet.case : PendingSet → QueryCase
  | .refresh _ _ => .refresh
  | .extraRight => .extraRight
  | .extraLeft => .extraLeft

/-- The client's state. -/
structure PuncturedClient where
  /-- The length of a row. -/
  rowLength : Nat
  /-- The sets whose hints are known. -/
  stored : Array StoredSet
  /-- The generator of the sets of the first hint, whose key the left server knows. -/
  hinted : SetGenerator
  /-- The generator of all later sets, whose key nobody else knows. -/
  current : SetGenerator
  /-- For every row a slot whose set contains it, if one is known. -/
  owner : Array (Option Nat)

namespace PuncturedClient

/-- How many rows the table has. -/
def rowCount (client : PuncturedClient) : Nat := client.hinted.tree.domain

/-- How many elements a set has. -/
def setSize (client : PuncturedClient) : Nat := client.hinted.tree.size

/-- The generator of a stored set. Numbers of the later generator begin where those of the first
one end. -/
def generatorOf (client : PuncturedClient) (handle : SetHandle) : SetGenerator :=
  if handle.number < client.hinted.nextNumber then client.hinted else client.current

/-- The set of a stored handle. -/
def rebuild (client : PuncturedClient) (handle : SetHandle) : KeyedSet :=
  (client.generatorOf handle).rebuild handle

/-- Note a slot as the owner of some rows. -/
def own (owner : Array (Option Nat)) (slot : Nat) (rows : List Nat) : Array (Option Nat) :=
  rows.foldl (fun owner row => owner.setIfInBounds row (some slot)) owner

/-- Take rows away from a slot, where they are noted as its own. -/
def disown (owner : Array (Option Nat)) (slot : Nat) (rows : List Nat) : Array (Option Nat) :=
  rows.foldl
    (fun owner row =>
      if owner[row]? = some (some slot) then owner.setIfInBounds row none else owner)
    owner

/-- The client that a hint makes. The stored sets are derived again from the seed of the hint. The
key of all later sets is drawn. -/
def ofHint (sums : SetSums) : Drawing PuncturedClient := do
  let rowCount := sums.shape.rowCount
  let first ← SetGenerator.make sums.seed 0 rowCount sums.setSize
  let (sets, hinted) ← SetGenerator.freshMany sums.sums.length first
  let key ← Drawing.ofTape Tape.label
  let current ← SetGenerator.make key hinted.nextNumber rowCount sums.setSize
  return {
    rowLength := sums.shape.rowLength
    stored := (List.zipWith (fun set hint => ⟨set.handle, hint⟩) sets sums.sums).toArray
    hinted, current
    owner := sets.zipIdx.foldl (fun owner (set, slot) => own owner slot set.elements)
      (Array.replicate rowCount none) }

/-- Look for a row in a set, and note the slot as the owner of the elements before it. -/
def scanSet (row slot : Nat) : List Nat → Array (Option Nat) → Bool × Array (Option Nat)
  | [], owner => (false, owner)
  | element :: rest, owner =>
      if element = row then (true, owner)
      else scanSet row slot rest (owner.setIfInBounds element (some slot))

/-- Look for a row in stored sets, slot by slot. -/
def scan (client : PuncturedClient) (row : Nat) :
    List (StoredSet × Nat) → Array (Option Nat) → Option Nat × Array (Option Nat)
  | [], owner => (none, owner)
  | (set, slot) :: rest, owner =>
      match scanSet row slot (client.rebuild set.handle).elements owner with
      | (true, owner) => (some slot, owner)
      | (false, owner) => client.scan row rest owner

/-- A slot whose set contains a row. If none is noted, the sets are searched, and the owners met on
the way are noted. -/
def locate (client : PuncturedClient) (row : Nat) : Option Nat × PuncturedClient :=
  match client.owner[row]? with
  | none => (none, client)
  | some (some slot) => (some slot, client)
  | some none =>
      let (slot, owner) := client.scan row client.stored.toList.zipIdx client.owner
      (slot, { client with owner })

/-- The set in a slot. -/
def setAt (client : PuncturedClient) (slot : Nat) : Outcome KeyedSet :=
  match client.stored[slot]? with
  | some set => .ok (client.rebuild set.handle)
  | none => .error (.breach .slotOutOfRange)

/-- The query that asks a server for its part. -/
def ask (client : PuncturedClient) (part : QueryPart KeyedSet) : Outcome SetQuery := do
  return ⟨← client.current.puncture part.set part.without, part.extra⟩

/-- Draw the queries for a row that the set in a slot contains. The generator of later sets moves
on by the fresh set. -/
def drawQuery (client : PuncturedClient) (row slot : Nat) :
    Drawing ((Sides SetQuery × PendingSet) × SetGenerator) := do
  let case := QueryCase.ofCoin client.setSize (← Drawing.below client.rowCount)
  let (fresh, current) ← client.current.freshWith row
  let stored ← client.setAt slot
  let first ← Drawing.memberExcept fresh.elements row
  let (source, excluded) := case.secondSource row fresh stored first
  let second ← Drawing.memberExcept source.elements excluded
  let parts := case.parts row fresh stored first second
  let queries : Sides SetQuery := ⟨← client.ask parts.left, ← client.ask parts.right⟩
  let pending := match case with
    | .refresh => .refresh slot fresh
    | .extraRight => .extraRight
    | .extraLeft => .extraLeft
  return ((queries, pending), current)

/-- The queries for a row, and what to remember until they are answered. -/
def query (client : PuncturedClient) (row : Nat) (tape : Tape) :
    Outcome (Sides SetQuery × PendingSet) × PuncturedClient × Tape :=
  if client.stored.isEmpty then (.error .noHint, client, tape)
  else
    match client.locate row with
    | (none, client) => (.error (.notCovered row), client, tape)
    | (some slot, client) =>
        match client.drawQuery row slot tape with
        | .ok ((result, current), tape) => (.ok result, { client with current }, tape)
        | .error failure => (.error failure, client, tape)

/-- Draw queries whose answers nobody waits for. They look like those for a row, and are the same
for both servers. -/
def drawDummy (client : PuncturedClient) : Drawing (Sides SetQuery × SetGenerator) := do
  let (fresh, current) ← client.current.freshWith 0
  let extra ← Drawing.memberExcept fresh.elements 0
  return (Sides.both (← client.ask ⟨fresh, 0, extra⟩), current)

/-- Queries whose answers nobody waits for. -/
def dummy (client : PuncturedClient) (tape : Tape) :
    Outcome (Sides SetQuery) × PuncturedClient × Tape :=
  match client.drawDummy tape with
  | .ok ((queries, current), tape) => (.ok queries, { client with current }, tape)
  | .error failure => (.error failure, client, tape)

/-- Put a set with a known hint into a slot. -/
def replace (client : PuncturedClient) (slot : Nat) (set : KeyedSet) (hint : Row) :
    Outcome PuncturedClient := do
  let old ← client.setAt slot
  if set.elements.all (· < client.owner.size) then
    return { client with
      stored := client.stored.setIfInBounds slot ⟨set.handle, hint⟩
      owner := own (disown client.owner slot old.elements) slot set.elements }
  else throw (.breach .elementOutOfRange)

/-- Whether the rows of an answer have the length of a row of the table. -/
def accepts (client : PuncturedClient) (answer : SetAnswer) : Bool :=
  answer.sum.length == client.rowLength && answer.extra.length == client.rowLength

/-- The row that was asked for, from the answers. A refresh also replaces the used set. A failure
leaves the client as it was. -/
def reconstruct (client : PuncturedClient) (pending : PendingSet) (answers : Sides SetAnswer) :
    Outcome (Row × PuncturedClient) := do
  if !(client.accepts answers.left && client.accepts answers.right) then
    throw .unexpectedResponse
  match pending with
  | .refresh slot replacement =>
      let some used := client.stored[slot]? | throw (.breach .slotOutOfRange)
      let row ← Row.xor? used.hint answers.right.sum
      let client ← client.replace slot replacement (answers.left.sum.xor row)
      return (row, client)
  | .extraRight => return ((answers.left.sum.xor answers.right.sum).xor answers.right.extra, client)
  | .extraLeft => return ((answers.left.sum.xor answers.right.sum).xor answers.left.extra, client)

/-- How many rows are in a stored set. -/
def coveredCount (client : PuncturedClient) : Nat :=
  let covered := client.stored.foldl
    (fun covered set => (client.rebuild set.handle).elements.foldl
      (fun covered element => covered.setIfInBounds element true) covered)
    (Array.replicate client.rowCount false)
  covered.toList.count true

end PuncturedClient

end PrivateRetrieval
