/-
# Shares of a point function

A point function is true at one number and false elsewhere. It is split between two servers as
two trees of pseudorandom nodes. Every node holds a seed and a control bit. Off the path to the
point the two trees have equal nodes, so the bits of their leaves cancel; on the path the seeds
differ and exactly one control bit is set. One correction per level, which both servers know,
keeps it that way: it is added to the children of a node whose control bit is set.

Nothing here depends on how a node is expanded. The expansion is an argument, and the library
instantiates it with the block cipher under two public keys.
-/

import PrivateRetrieval.Bits.Packed
import PrivateRetrieval.Label.Cipher
import PrivateRetrieval.Random.Tape

namespace PrivateRetrieval

/-- A node of a tree of shares. -/
structure ShareNode where
  seed : Label
  control : Bool
  deriving DecidableEq, Repr, Inhabited

/-- What is added to the children of a node whose control bit is set. -/
structure Correction where
  seed : Label
  left : Bool
  right : Bool
  deriving DecidableEq, Repr, Inhabited

/-- One server's share of a point function: the root of its tree, and one correction for every
level from the root down. -/
structure PointShare where
  root : ShareNode
  corrections : List Correction
  deriving DecidableEq, Repr, Inhabited

/-- The two nodes below a seed, before any correction. -/
abbrev Expansion := Label → ShareNode × ShareNode

namespace ShareNode

/-- The keys of the two expanding ciphers, sixteen letters each. -/
def leftKey : Label := ⟨0x2d6772702d667064, 0x79656b2d7466656c⟩

/-- The key of the cipher that expands to the right, "dpf-prg-rightkey". -/
def rightKey : Label := ⟨0x2d6772702d667064, 0x79656b7468676972⟩

/-- The node that an expanded label stands for: its lowest bit is the control bit. -/
def ofLabel (label : Label) : ShareNode := ⟨label.clearLowestBit, label.lowestBit⟩

/-- The cipher that expands to the left. -/
def leftCipher : Cipher := Cipher.ofKey leftKey

/-- The cipher that expands to the right. -/
def rightCipher : Cipher := Cipher.ofKey rightKey

/-- The expansion that both servers and the client use. -/
def expand : Expansion := fun seed =>
  (ofLabel (leftCipher.compress seed), ofLabel (rightCipher.compress seed))

/-- The child of a node on one side, after correction. -/
def child (expansion : Expansion) (node : ShareNode) (correction : Correction) (goRight : Bool) :
    ShareNode :=
  let (left, right) := expansion node.seed
  let (below, flip) := if goRight then (right, correction.right) else (left, correction.left)
  ⟨below.seed ^^^ correction.seed.masked node.control,
    below.control ^^ (node.control && flip)⟩

end ShareNode

/-- The correction of a level. On the side that leaves the path it makes the two seeds and control
bits equal, and on the side that stays it makes the control bits differ. -/
def Correction.between (expansion : Expansion) (first second : ShareNode) (goRight : Bool) :
    Correction :=
  let (firstLeft, firstRight) := expansion first.seed
  let (secondLeft, secondRight) := expansion second.seed
  { seed :=
      if goRight then firstLeft.seed ^^^ secondLeft.seed
      else firstRight.seed ^^^ secondRight.seed
    left := firstLeft.control ^^ secondLeft.control ^^ goRight ^^ true
    right := firstRight.control ^^ secondRight.control ^^ goRight }

/-- The corrections of so many levels below two nodes, towards a point. The path turns by the bits
of the point, the topmost one first. -/
def Correction.alongPath (expansion : Expansion) (point : Nat) :
    Nat → ShareNode → ShareNode → List Correction
  | 0, _, _ => []
  | levels + 1, first, second =>
      let goRight := point.testBit levels
      let correction := Correction.between expansion first second goRight
      correction :: Correction.alongPath expansion point levels
        (first.child expansion correction goRight) (second.child expansion correction goRight)

namespace PointShare

/-- The two shares of a point function with given root seeds. -/
def ofSeeds (expansion : Expansion) (point levels : Nat) (left right : Label) :
    PointShare × PointShare :=
  let leftRoot : ShareNode := ⟨left, false⟩
  let rightRoot : ShareNode := ⟨right, true⟩
  let path := Correction.alongPath expansion point levels leftRoot rightRoot
  (⟨leftRoot, path⟩, ⟨rightRoot, path⟩)

/-- The two shares of a point function on so many levels. The root seeds are drawn, the left one
first. -/
def split (expansion : Expansion) (point levels : Nat) (tape : Tape) :
    (PointShare × PointShare) × Tape :=
  let (left, tape) := tape.label
  let (right, tape) := tape.label
  (ofSeeds expansion point levels left right, tape)

/-- The control bit at a number below a node. -/
def evalFrom (expansion : Expansion) : List Correction → ShareNode → Nat → Bool
  | [], node, _ => node.control
  | correction :: below, node, number =>
      evalFrom expansion below
        (node.child expansion correction (number.testBit below.length)) number

/-- The share's bit at a number. -/
def eval (expansion : Expansion) (share : PointShare) (number : Nat) : Bool :=
  evalFrom expansion share.corrections share.root number

/-- The bits of the first so many numbers below a node. Subtrees beyond the last wanted number are
not expanded. -/
def bitsFrom (expansion : Expansion) : List Correction → ShareNode → Nat → List Bool
  | _, _, 0 => []
  | [], node, _ + 1 => [node.control]
  | correction :: below, node, wanted =>
      bitsFrom expansion below (node.child expansion correction false) wanted ++
        bitsFrom expansion below (node.child expansion correction true)
          (wanted - 1 <<< below.length)

/-- The share's bits at the first so many numbers. Numbers that the tree does not reach are
missing at the end. -/
def bits (expansion : Expansion) (share : PointShare) (count : Nat) : List Bool :=
  bitsFrom expansion share.corrections share.root count

/-- Mark the numbers below a node whose bit is set in a bitmap of the first so many numbers. The
leaves below the node are counted from a given number on, and subtrees that begin beyond the last
number of the bitmap are not expanded. -/
def markFrom (expansion : Expansion) (count : Nat) :
    List Correction → ShareNode → Nat → Array UInt8 → Outcome (Array UInt8)
  | [], node, first, bitmap =>
      if first < count ∧ node.control then Bits.setBit bitmap first else .ok bitmap
  | correction :: below, node, first, bitmap =>
      if first < count then do
        let bitmap ← markFrom expansion count below (node.child expansion correction false) first
          bitmap
        markFrom expansion count below (node.child expansion correction true)
          (first + 1 <<< below.length) bitmap
      else .ok bitmap

/-- The share's bits at the first so many numbers, marked in a bitmap that begins as zeros. -/
def mark (expansion : Expansion) (share : PointShare) (count : Nat) : Outcome (Array UInt8) :=
  markFrom expansion count share.corrections share.root 0 (Array.replicate (Bits.byteCount count) 0)

/-- The share's bits at the first so many numbers, as a bitmap. -/
def bitmap (expansion : Expansion) (share : PointShare) (count : Nat) : List UInt8 :=
  let bits := share.bits expansion count
  Bits.pack (bits ++ List.replicate (count - bits.length) false)

end PointShare

end PrivateRetrieval
