/-
# Rice coding of ascending sequences

An ascending sequence of 32-bit numbers is kept as its first number and the codes of the gaps
between neighbours. With parameter `k` the code of a gap is its quotient by `2 ^ k` in unary, as so
many ones and a zero, followed by the `k` binary digits of the remainder. Short codes need a
parameter near the logarithm of the average gap, and `Rice.parameterFor` picks that one.

The decoder accepts exactly what this format can say. It refuses a sequence whose data are too
short before it reads any code, and one that leaves a whole byte unread.
-/

import PrivateRetrieval.Bits.Stream

namespace PrivateRetrieval

/-- A coded sequence. The numbers are as they arrive, so they need not make sense. -/
structure Rice where
  /-- The first number of the sequence. -/
  first : Int
  /-- How many digits of a gap are written in binary. -/
  parameter : Int
  /-- How many gaps follow. -/
  count : Int
  /-- The codes of the gaps. -/
  data : List UInt8
  deriving DecidableEq, Repr

namespace Rice

/-- The largest parameter: a gap has 32 bits. -/
def maxParameter : Nat := 32

/-- The largest number of gaps that a coded sequence can name. -/
def maxCount : Nat := 0x7fffffff

/-- Write the code of one gap. -/
def writeCode (parameter : Nat) (writer : Bits.Writer) (gap : Nat) : Outcome Bits.Writer :=
  (writer.writeUnary (gap >>> parameter)).write (gap &&& (1 <<< parameter - 1)) parameter

/-- Read one code, and return the gap and what is left. The quotient is shifted within a word of 64
bits, so a quotient that is too long for the word would lose its topmost digits. -/
def readCode (parameter : Nat) (reader : Bits.Reader) : Outcome (Nat × Bits.Reader) :=
  match reader.readUnary with
  | (.error failure, _) => .error failure
  | (.ok quotient, rest) =>
      match rest.read parameter with
      | (.error failure, _) => .error failure
      | (.ok remainder, left) =>
          let gap := (quotient <<< parameter) % UInt64.size + remainder
          if gap < UInt32.size then .ok (gap, left) else .error (.undecodable .valueTooLarge)

/-- The gaps between the neighbours of a sequence. -/
def gaps (numbers : List UInt32) : List Nat :=
  List.zipWith (fun earlier later => later.toNat - earlier.toNat) numbers numbers.tail

/-- Read so many codes after a number, and return the numbers they lead to and what is left. -/
def readNumbers (parameter : Nat) : Nat → UInt32 → Bits.Reader →
    Outcome (List UInt32 × Bits.Reader)
  | 0, _, reader => .ok ([], reader)
  | count + 1, last, reader => do
      let (gap, reader) ← readCode parameter reader
      if last.toNat + gap < UInt32.size then
        let number := UInt32.ofNat (last.toNat + gap)
        let (numbers, reader) ← readNumbers parameter count number reader
        return (number :: numbers, reader)
      else
        throw (.undecodable .valueTooLarge)

/-- Decode a sequence, or say what is wrong with it. -/
def decode (coded : Rice) : Outcome (List UInt32) :=
  if coded.parameter < 0 ∨ (maxParameter : Int) < coded.parameter then
    .error (.undecodable .parameterOutOfRange)
  else if coded.count < 0 then .error (.undecodable .negativeCount)
  else if coded.first < 0 ∨ (UInt32.size : Int) ≤ coded.first then
    .error (.undecodable .firstTooLarge)
  else
    let parameter := coded.parameter.toNat
    let count := coded.count.toNat
    let first := UInt32.ofNat coded.first.toNat
    if 8 * coded.data.length < count * (parameter + 1) then .error (.undecodable .tooShort)
    else do
      let (numbers, left) ← readNumbers parameter count first (Bits.Reader.ofBytes coded.data)
      if left.remaining < 8 then return first :: numbers
      else throw (.undecodable .bytesLeftOver)

/-- Whether a sequence is ascending, equal neighbours allowed. -/
def isAscending : List UInt32 → Bool
  | earlier :: later :: rest => decide (earlier ≤ later) && isAscending (later :: rest)
  | _ => true

/-- Encode an ascending sequence with a given parameter. A single number has no gaps, and is
written with parameter 0. -/
def encodeWith (numbers : List UInt32) (parameter : Int) : Outcome Rice :=
  match numbers with
  | [] => .error .invalidConfiguration
  | first :: rest =>
      if parameter < 0 ∨ (maxParameter : Int) < parameter ∨ isAscending numbers = false then
        .error .invalidConfiguration
      else if maxCount < rest.length then .error .arithmetic
      else if rest = [] then .ok ⟨first.toNat, 0, 0, []⟩
      else do
        let writer ← (gaps numbers).foldlM (writeCode parameter.toNat) Bits.Writer.empty
        return ⟨first.toNat, parameter, rest.length, writer.toBytes⟩

/-- The parameter for a sequence of some length that spans a range: the binary logarithm of the
average gap, rounded down and at least 0. A sequence that does not grow is written with 1. -/
def parameterFor (range length : Nat) : Nat :=
  if range = 0 then 1 else Nat.log2 (range / length)

/-- Encode an ascending sequence. The empty one has no code. -/
def encode (numbers : List UInt32) : Outcome (Option Rice) :=
  match numbers.head?, numbers.getLast? with
  | some first, some last =>
      (encodeWith numbers (parameterFor (last.toNat - first.toNat) numbers.length)).map some
  | _, _ => .ok none

/-- The numbers in ascending order. -/
def sorted (numbers : List UInt32) : List UInt32 :=
  numbers.mergeSort fun left right => decide (left ≤ right)

end Rice

end PrivateRetrieval
