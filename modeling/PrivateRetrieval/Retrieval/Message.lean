/-
# Messages between a client and its two servers

Four schemes let a client read a row of a table that two servers hold. The client first asks one
server for a hint, which for all schemes but one is no more than the shape of the table. To read a
row it sends one query to each server and combines the two answers. The servers do not talk to each
other, and what a scheme hides is hidden from each server alone.

Messages carry their scheme. Their fields are as they arrive: a message from elsewhere may be
inconsistent, and whoever receives it checks.
-/

import PrivateRetrieval.Points.Share
import PrivateRetrieval.Sets.Generator
import PrivateRetrieval.Table

namespace PrivateRetrieval

/-- One thing for each of the two servers. -/
structure Sides (α : Type) where
  left : α
  right : α
  deriving DecidableEq, Repr

namespace Sides

/-- The same thing for both servers. -/
def both {α : Type} (value : α) : Sides α := ⟨value, value⟩

/-- Apply a function on both sides. -/
def map {α β : Type} (f : α → β) (sides : Sides α) : Sides β := ⟨f sides.left, f sides.right⟩

/-- The two things as a list, the left one first. -/
def toList {α : Type} (sides : Sides α) : List α := [sides.left, sides.right]

end Sides

/-- How a row is read. -/
inductive Scheme
  /-- Punctured pseudorandom sets, prepared by a hint that depends on the rows. -/
  | puncturedSets
  /-- Shares of a point function. -/
  | pointFunction
  /-- Random subsets of the lines of a square arrangement. -/
  | matrix
  /-- The row's number in the clear. -/
  | plain
  deriving DecidableEq, Repr

/-- What a client asks for before its first query. -/
inductive HintRequest
  /-- The sums of the sets derived from a seed. Their number grows with the multiplier. -/
  | puncturedSets (seed : Label) (multiplier : Nat)
  | pointFunction
  | matrix
  | plain
  deriving DecidableEq, Repr

/-- The hint of the punctured scheme: the sum of the rows of every set that the seed derives, in
the order of derivation. -/
structure SetSums where
  shape : Shape
  setSize : Nat
  seed : Label
  sums : List Row
  deriving DecidableEq, Repr

/-- What a server tells a client before its first query. -/
inductive Hint
  | puncturedSets (sums : SetSums)
  | pointFunction (shape : Shape)
  | matrix (shape : Shape)
  | plain (shape : Shape)
  deriving DecidableEq, Repr

/-- Asks for the sum of the rows of a punctured set, and for one more row in the clear. -/
structure SetQuery where
  set : PuncturedSet
  extra : Nat
  deriving DecidableEq, Repr

/-- The sum of the rows of a punctured set, and one more row. -/
structure SetAnswer where
  sum : Row
  extra : Row
  deriving DecidableEq, Repr

/-- What a client asks one server in order to read a row. -/
inductive Query
  | puncturedSets (query : SetQuery)
  | pointFunction (share : PointShare)
  /-- One bit for each line, set if the line is to be added. -/
  | matrix (lines : List Bool)
  | plain (index : Nat)
  deriving DecidableEq, Repr

/-- What a server answers. -/
inductive Answer
  | puncturedSets (answer : SetAnswer)
  | pointFunction (sum : Row)
  | matrix (line : Row)
  | plain (row : Row)
  deriving DecidableEq, Repr

/-- The scheme of a hint request. -/
def HintRequest.scheme : HintRequest → Scheme
  | .puncturedSets _ _ => .puncturedSets
  | .pointFunction => .pointFunction
  | .matrix => .matrix
  | .plain => .plain

/-- The shape of the table that a hint describes. -/
def Hint.shape : Hint → Shape
  | .puncturedSets sums => sums.shape
  | .pointFunction shape | .matrix shape | .plain shape => shape

end PrivateRetrieval
