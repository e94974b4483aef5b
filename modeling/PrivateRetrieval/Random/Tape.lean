/-
# Random tapes

All randomness of the library comes from its caller, as an infinite tape of 64-bit words and the
position of the next unread one. A call that draws reads words from the position on and moves it.
Quantifying over tapes is quantifying over every source of randomness, and two runs on one tape
make the same choices.

Some draws reject words. Whether such a search ends depends on the tape, so it is bounded: after
`Tape.patience` rejected words it fails with `Failure.exhausted`. A source that is random at all
does not come near the bound.
-/

import PrivateRetrieval.Failure
import PrivateRetrieval.Label.Basic

namespace PrivateRetrieval

/-- A source of random words. -/
structure Tape where
  /-- The words, in the order in which they are read. -/
  word : Nat → UInt64
  /-- How many words have been read. -/
  position : Nat

/-- A computation that draws. A computation that fails leaves no tape, which serves where failing
means that nothing goes on. -/
abbrev Drawing := StateT Tape Outcome

namespace Tape

/-- Read one word. -/
def next (tape : Tape) : UInt64 × Tape :=
  (tape.word tape.position, { tape with position := tape.position + 1 })

/-- Draw a label: two words. -/
def label (tape : Tape) : Label × Tape :=
  let (low, tape) := tape.next
  let (high, tape) := tape.next
  (⟨low, high⟩, tape)

/-- Draw a bit: the topmost one of the lower half of a word. -/
def coin (tape : Tape) : Bool × Tape :=
  let (word, tape) := tape.next
  (word &&& 0x80000000 != 0, tape)

/-- Draw a number of bits in order. -/
def coins : Nat → Tape → List Bool × Tape
  | 0, tape => ([], tape)
  | count + 1, tape =>
      let (bit, tape) := tape.coin
      let (bits, tape) := coins count tape
      (bit :: bits, tape)

/-- Read a number of words in order. -/
def words : Nat → Tape → List UInt64 × Tape
  | 0, tape => ([], tape)
  | count + 1, tape =>
      let (word, tape) := tape.next
      let (rest, tape) := words count tape
      (word :: rest, tape)

/-- Draw a number of bytes: whole words, the last one cut to what is still needed. -/
def bytes (count : Nat) (tape : Tape) : List UInt8 × Tape :=
  let (words, tape) := tape.words ((count + 7) / 8)
  ((words.flatMap wordBytes).take count, tape)

/-- How many words a search may reject before it gives up. -/
def patience : Nat := UInt32.size

/-- Read words until one is accepted, at most as many as allowed. -/
def search {α : Type} (accept : UInt64 → Option α) : Nat → Tape → Option α × Tape
  | 0, tape => (none, tape)
  | allowed + 1, tape =>
      let (word, tape) := tape.next
      match accept word with
      | some value => (some value, tape)
      | none => search accept allowed tape

/-- The number below a bound that a word stands for, if it stands for one. The word is scaled to
the bound by multiplying and keeping the upper half. The lower half must fall below the greatest
multiple of the bound by a power of two that fits a word: this leaves equally many words for every
number. -/
def scaled (bound : Nat) (word : UInt64) : Option Nat :=
  let product := word.toNat * bound
  let zone := bound <<< (63 - Nat.log2 bound)
  if product % UInt64.size < zone then some (product / UInt64.size) else none

end Tape

namespace Drawing

/-- A draw that cannot fail. -/
def ofTape {α : Type} (draw : Tape → α × Tape) : Drawing α := fun tape => .ok (draw tape)

/-- A draw that rejects words until one is accepted. -/
def search {α : Type} (accept : UInt64 → Option α) : Drawing α := fun tape =>
  match Tape.search accept Tape.patience tape with
  | (some value, tape) => .ok (value, tape)
  | (none, _) => .error .exhausted

/-- A uniform number below a bound. -/
def below (bound : Nat) : Drawing Nat := search (Tape.scaled bound)

/-- A uniform member of a list other than the given one. A word that stands for no place of the
list and a word that stands for the excluded member are rejected alike. -/
def memberExcept (members : List Nat) (excluded : Nat) : Drawing Nat :=
  search fun word => do
    let place ← Tape.scaled members.length word
    let member ← members[place]?
    if member = excluded then none else some member

end Drawing

end PrivateRetrieval
