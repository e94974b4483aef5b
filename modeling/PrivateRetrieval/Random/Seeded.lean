/-
# Tapes from a seed

A reproducible tape. A counter that starts at the seed grows by a fixed odd step, and each word of
the tape is the counter passed through a bijective mixer, so the word at any position is computed
without the ones before it. A tape may begin with words given by hand.
-/

import PrivateRetrieval.Random.Tape

namespace PrivateRetrieval.Tape

/-- The step of the counter, the binary expansion of the golden ratio. -/
def goldenStep : UInt64 := 0x9E3779B97F4A7C15

/-- The mixer. -/
def mix (counter : UInt64) : UInt64 :=
  let once := (counter ^^^ (counter >>> 30)) * 0xBF58476D1CE4E5B9
  let twice := (once ^^^ (once >>> 27)) * 0x94D049BB133111EB
  twice ^^^ (twice >>> 31)

/-- The word at a position of the tape of a seed. -/
def seededWord (seed : UInt64) (position : Nat) : UInt64 :=
  mix (seed + (position + 1).toUInt64 * goldenStep)

/-- The tape that begins with the given words and goes on with those of the seed. -/
def seeded (words : Array UInt64) (seed : UInt64) : Tape where
  word position :=
    if inside : position < words.size then words[position]
    else seededWord seed (position - words.size)
  position := 0

/-- A list of rows of one length, drawn one after the other from the tape of a seed. -/
def rows : Nat → Nat → Tape → List (List UInt8) × Tape
  | 0, _, tape => ([], tape)
  | count + 1, length, tape =>
      let (row, tape) := tape.bytes length
      let (rest, tape) := rows count length tape
      (row :: rest, tape)

/-- A list of 32-bit numbers, the lower halves of successive words. -/
def halfWords (count : Nat) (tape : Tape) : List UInt32 × Tape :=
  let (words, tape) := tape.words count
  (words.map UInt64.toUInt32, tape)

end PrivateRetrieval.Tape
