/-
# Sets that can be punctured

A set is the sequence of leaves of a binary tree of labels. The children of a node are computed
from its label, so the root determines the set, and nothing about one subtree says anything about
another. Leaves map to elements of the domain, and only as many leaves as the set has elements are
evaluated, so the last level may be cut off.

Puncturing a set at a leaf reveals the siblings of the nodes on the way to that leaf, from the root
down. They are the roots of the subtrees that make up the rest of the tree, so every other leaf can
still be evaluated.
-/

import PrivateRetrieval.Failure
import PrivateRetrieval.Label.Cipher

namespace PrivateRetrieval

/-- The least height of a binary tree that has so many leaves. -/
def treeHeight (leaves : Nat) : Nat :=
  if leaves ≤ 1 then 0 else Nat.log2 (leaves - 1) + 1

/-- The cipher that expands nodes. Its key is public: the tree hides its nodes because the
compression of a label cannot be inverted. -/
def nodeCipher : Cipher := Cipher.ofKey Label.zero

/-- The two children of a node. -/
def Label.children (parent : Label) : Label × Label :=
  (nodeCipher.compress (parent.mark 0), nodeCipher.compress (parent.mark 1))

namespace LabelTree

variable (children : Label → Label × Label)

/-- The first so many leaves below a node of a given height. -/
def leaves : Nat → Label → Nat → List Label
  | _, _, 0 => []
  | 0, node, _ + 1 => [node]
  | height + 1, node, wanted =>
      let (left, right) := children node
      leaves height left wanted ++ leaves height right (wanted - 1 <<< height)

/-- The siblings of the nodes on the way from a node down to a leaf. -/
def copath : Nat → Label → Nat → List Label
  | 0, _, _ => []
  | height + 1, node, leaf =>
      let (left, right) := children node
      if leaf < 1 <<< height then right :: copath height left leaf
      else left :: copath height right (leaf - 1 <<< height)

/-- The leaves that a copath still determines: the first so many leaves of the tree, except the
one that the copath leads to. -/
def leavesExcept : List Label → Nat → Nat → List Label
  | [], _, _ => []
  | sibling :: below, hole, wanted =>
      let height := below.length
      if hole < 1 <<< height then
        leavesExcept below hole wanted ++ leaves children height sibling (wanted - 1 <<< height)
      else
        leaves children height sibling wanted ++
          leavesExcept below (hole - 1 <<< height) (wanted - 1 <<< height)

end LabelTree

/-- The sets of a given size over a domain of row numbers. -/
structure SetTree where
  /-- Elements are below this number. -/
  domain : Nat
  /-- How many elements a set has. -/
  size : Nat
  /-- A set has an element. -/
  size_pos : 0 < size
  /-- The domain holds a set. -/
  size_le : size ≤ domain
  /-- How a node is expanded. -/
  children : Label → Label × Label := Label.children

namespace SetTree

/-- The sets of a given size over a domain, if there are any. -/
def make (domain size : Nat) : Outcome SetTree :=
  if positive : 0 < size then
    if inside : size ≤ domain then
      .ok { domain, size, size_pos := positive, size_le := inside }
    else .error (.breach .domainTooSmall)
  else .error (.breach .emptySet)

/-- The height of the tree. -/
def height (tree : SetTree) : Nat := treeHeight tree.size

/-- The element that a leaf stands for. -/
def element (tree : SetTree) (leaf : Label) : Nat :=
  (leaf.low ^^^ leaf.high).toNat % tree.domain

/-- The elements of the set with a given root, in the order of the leaves. They need not be
distinct. -/
def elements (tree : SetTree) (root : Label) : List Nat :=
  (LabelTree.leaves tree.children tree.height root tree.size).map tree.element

/-- What puncturing the set of a root at a leaf reveals. -/
def puncture (tree : SetTree) (root : Label) (leaf : Nat) : Outcome (List Label) :=
  if leaf < tree.size then .ok (LabelTree.copath tree.children tree.height root leaf)
  else .error (.breach .leafOutOfRange)

/-- The elements that a copath still determines, in the order of the leaves. -/
def elementsExcept (tree : SetTree) (copath : List Label) (hole : Nat) : Outcome (List Nat) :=
  if copath.length = tree.height then
    if hole < tree.size then
      .ok ((LabelTree.leavesExcept tree.children copath hole tree.size).map tree.element)
    else .error (.breach .leafOutOfRange)
  else .error (.breach .copathLength)

/-- The domain has a row, so the remainder that names an element is below it. -/
theorem domain_pos (tree : SetTree) : 0 < tree.domain :=
  Nat.lt_of_lt_of_le tree.size_pos tree.size_le

theorem element_lt (tree : SetTree) (leaf : Label) : tree.element leaf < tree.domain :=
  Nat.mod_lt _ tree.domain_pos

end SetTree

end PrivateRetrieval
