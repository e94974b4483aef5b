/-
# Pseudorandom sets under a key

A generator derives one set after the other from a key. The root of a set comes from the set's
number, and numbers whose set has equal elements are skipped. A set is then shifted: its elements
are moved by a constant, modulo the domain, which keeps them distinct. Either the shift is
pseudorandom, or it is chosen so that a given row lands on a pseudorandom leaf.

Number and shift together are the handle of a set. The generator rebuilds the set from the handle,
so a client stores handles only.
-/

import PrivateRetrieval.Sets.Tree

namespace PrivateRetrieval

/-- The handle of a set: its number, and the constant added to its elements. -/
structure SetHandle where
  number : UInt32
  shift : UInt32
  deriving DecidableEq, Repr, Inhabited

/-- A set with its elements at hand. -/
structure KeyedSet where
  handle : SetHandle
  /-- The label from which the unshifted elements are derived. -/
  root : Label
  /-- The shifted elements, in the order of the leaves. -/
  elements : List Nat
  deriving DecidableEq, Repr

/-- A set without one of its elements, in the form in which a server receives it. Its fields are as
they arrive, so they need not fit together. -/
structure PuncturedSet where
  /-- The size of the domain. -/
  domain : Nat
  /-- How many elements remain. -/
  size : Nat
  /-- The copath of the hole, from the root down. -/
  copath : List Label
  /-- The leaf of the missing element. -/
  hole : Nat
  /-- The constant added to every element. -/
  shift : UInt32
  deriving DecidableEq, Repr

/-- Move elements by a constant, modulo the domain. -/
def shiftElements (domain : Nat) (shift : UInt32) (elements : List Nat) : List Nat :=
  if shift = 0 then elements else elements.map fun element => (element + shift.toNat) % domain

/-- The elements that remain in a punctured set. -/
def PuncturedSet.elements (set : PuncturedSet) : Outcome (List Nat) := do
  let tree ← SetTree.make set.domain (set.size + 1)
  let unshifted ← tree.elementsExcept set.copath set.hole
  return shiftElements set.domain set.shift unshifted

/-- Sets under a key. -/
structure SetGenerator where
  /-- The shape of the sets. -/
  tree : SetTree
  /-- The key from which roots and shifts are derived. -/
  cipher : Cipher
  /-- The number that the next set tries first. -/
  nextNumber : UInt32

namespace SetGenerator

/-- The tag of labels that become roots. -/
def rootTag : UInt8 := 0xAA

/-- The tag of labels that become shifts. -/
def shiftTag : UInt8 := 0xBB

/-- The generator under a key whose first set has a given number or a later one. -/
def make (key : Label) (first : UInt32) (domain size : Nat) : Outcome SetGenerator := do
  return { tree := ← SetTree.make domain size, cipher := Cipher.ofKey key, nextNumber := first }

/-- The root of the set with a given number. -/
def rootOf (generator : SetGenerator) (number : UInt32) : Label :=
  generator.cipher.derive rootTag number

/-- The word from which the shift of a set is derived. -/
def shiftWord (generator : SetGenerator) (number : UInt32) : Nat :=
  (generator.cipher.derive shiftTag number).low.toNat

/-- The set of a handle. -/
def rebuild (generator : SetGenerator) (handle : SetHandle) : KeyedSet :=
  let root := generator.rootOf handle.number
  let elements := shiftElements generator.tree.domain handle.shift (generator.tree.elements root)
  { handle, root, elements }

/-- How many numbers a set can have. A search for a set with distinct elements that has tried all
of them would repeat itself. -/
def numberCount : Nat := UInt32.size

/-- The first number from a given one on whose elements are distinct, among so many numbers. -/
def distinctFrom (generator : SetGenerator) : Nat → UInt32 → Option (UInt32 × List Nat)
  | 0, _ => none
  | tries + 1, number =>
      let elements := generator.tree.elements (generator.rootOf number)
      if elements.Nodup then some (number, elements)
      else generator.distinctFrom tries (number + 1)

/-- The next number whose elements are distinct, those elements, and the generator after it. -/
def nextDistinct (generator : SetGenerator) : Outcome ((UInt32 × List Nat) × SetGenerator) :=
  match generator.distinctFrom numberCount generator.nextNumber with
  | some (number, elements) =>
      .ok ((number, elements), { generator with nextNumber := number + 1 })
  | none => .error .exhausted

/-- The set of a number whose unshifted elements are known, under a shift of 32 bits. -/
def shifted (generator : SetGenerator) (number : UInt32) (unshifted : List Nat) (shift : Nat) :
    KeyedSet :=
  let handle : SetHandle := ⟨number, UInt32.ofNat shift⟩
  { handle, root := generator.rootOf number,
    elements := shiftElements generator.tree.domain handle.shift unshifted }

/-- A fresh set with a pseudorandom shift. -/
def fresh (generator : SetGenerator) : Outcome (KeyedSet × SetGenerator) := do
  let ((number, unshifted), advanced) ← generator.nextDistinct
  let shift := generator.shiftWord number % generator.tree.domain
  return (generator.shifted number unshifted shift, advanced)

/-- The difference of two row numbers modulo the domain. Row numbers are taken as signed words of
64 bits, which only matters for numbers that no table reaches. -/
def difference (domain target element : Nat) : Nat :=
  let width := UInt64.size
  (Int.emod (Int.bmod ((target : Int) - element) width) (Int.bmod domain width)).toNat

/-- A fresh set that contains a given row, on a pseudorandom leaf. -/
def freshWith (generator : SetGenerator) (target : Nat) : Outcome (KeyedSet × SetGenerator) := do
  let ((number, unshifted), advanced) ← generator.nextDistinct
  let leaf := generator.shiftWord number % generator.tree.size
  let shift := difference generator.tree.domain target (unshifted.getD leaf 0)
  return (generator.shifted number unshifted shift, advanced)

/-- So many fresh sets in a row. -/
def freshMany : Nat → SetGenerator → Outcome (List KeyedSet × SetGenerator)
  | 0, generator => .ok ([], generator)
  | count + 1, generator => do
      let (set, generator) ← generator.fresh
      let (sets, generator) ← freshMany count generator
      return (set :: sets, generator)

/-- A set without one of its elements. -/
def puncture (generator : SetGenerator) (set : KeyedSet) (element : Nat) :
    Outcome PuncturedSet := do
  match set.elements.idxOf? element with
  | none => throw (.breach .notAMember)
  | some hole =>
      let copath ← generator.tree.puncture set.root hole
      return { domain := generator.tree.domain, size := generator.tree.size - 1, copath, hole,
               shift := set.handle.shift }

end SetGenerator

end PrivateRetrieval
