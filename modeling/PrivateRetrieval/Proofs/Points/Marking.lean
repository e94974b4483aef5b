/-
# The numbers that a share marks

A server evaluates a share at all numbers of its table at once and marks the numbers whose bit is
set in a bitmap. It walks down the tree and leaves out what begins beyond the last number, so it
writes within the bitmap only, whatever depth the share has. The bitmap holds the bits of the
share at the single numbers.
-/

import PrivateRetrieval.Proofs.Codes.Packing
import PrivateRetrieval.Proofs.Points.Correctness

namespace PrivateRetrieval.PointShare

variable (expansion : Expansion) (count : Nat)

/-- A number is one of those below a node that are to be marked. The leaves below the node are
counted from a given number on. -/
def Marks (corrections : List Correction) (node : ShareNode) (first number : Nat) : Prop :=
  number < count ∧ ∃ leaf < 2 ^ corrections.length, number = first + leaf ∧
    evalFrom expansion corrections node leaf = true

variable {expansion count}

theorem marks_nil_iff {node : ShareNode} {first number : Nat} :
    Marks expansion count [] node first number ↔
      (first < count ∧ node.control = true) ∧ number = first := by
  constructor
  · rintro ⟨inside, leaf, single, rfl, set⟩
    obtain rfl : leaf = 0 := Nat.lt_one_iff.mp single
    exact ⟨⟨inside, set⟩, rfl⟩
  · rintro ⟨⟨inside, set⟩, rfl⟩
    exact ⟨inside, 0, Nat.one_pos, rfl, set⟩

/-- What is marked below a node is marked below one of its children. -/
theorem marks_cons_iff {correction : Correction} {below : List Correction} {node : ShareNode}
    {first number : Nat} :
    Marks expansion count (correction :: below) node first number ↔
      Marks expansion count below (node.child expansion correction false) first number ∨
        Marks expansion count below (node.child expansion correction true)
          (first + 2 ^ below.length) number := by
  constructor
  · rintro ⟨inside, leaf, inTree, isNumber, set⟩
    rcases Nat.lt_or_ge leaf (2 ^ below.length) with isLeft | isRight
    · rw [evalFrom_cons_left expansion correction node isLeft] at set
      exact .inl ⟨inside, leaf, isLeft, isNumber, set⟩
    · obtain ⟨rest, rfl⟩ := Nat.exists_eq_add_of_le isRight
      have inRight : rest < 2 ^ below.length := by
        rw [List.length_cons, Nat.pow_succ] at inTree
        omega
      rw [evalFrom_cons_right expansion correction node inRight] at set
      exact .inr ⟨inside, rest, inRight, isNumber.trans (Nat.add_assoc ..).symm, set⟩
  · have wide : 2 ^ (correction :: below).length = 2 ^ below.length + 2 ^ below.length := by
      rw [List.length_cons, Nat.pow_succ, Nat.mul_two]
    rintro (⟨inside, leaf, isLeft, isNumber, set⟩ | ⟨inside, rest, inRight, isNumber, set⟩)
    · rw [← evalFrom_cons_left expansion correction node isLeft] at set
      exact ⟨inside, leaf, by omega, isNumber, set⟩
    · rw [← evalFrom_cons_right expansion correction node inRight] at set
      exact ⟨inside, 2 ^ below.length + rest, by omega, by omega, set⟩

variable (expansion) in
/-- Marking writes within a bitmap that has room for all numbers, and it sets the bits that are to
be marked. The induction is on the levels below the node. -/
theorem markFrom_spec (corrections : List Correction) (node : ShareNode) (first : Nat)
    {bitmap : Array UInt8} (room : count ≤ 8 * bitmap.size) :
    ∃ after, markFrom expansion count corrections node first bitmap = .ok after ∧
      after.size = bitmap.size ∧
      ∀ number, Bits.isSet after number = true ↔
        Bits.isSet bitmap number = true ∨ Marks expansion count corrections node first number := by
  induction corrections generalizing node first bitmap with
  | nil =>
      simp only [marks_nil_iff]
      by_cases marked : first < count ∧ node.control = true
      · obtain ⟨after, written, size, set⟩ :=
          Bits.setBit_spec (Nat.lt_of_lt_of_le marked.1 room)
        refine ⟨after, (if_pos marked).trans written, size, fun number => ?_⟩
        rw [set, and_iff_right marked]
      · refine ⟨bitmap, if_neg marked, rfl, fun number => ?_⟩
        exact (or_iff_left fun wrong => marked wrong.1).symm
  | cons correction below ih =>
      by_cases inside : first < count
      · obtain ⟨left, isLeft, sizeLeft, setLeft⟩ :=
          ih (node.child expansion correction false) first room
        obtain ⟨right, isRight, sizeRight, setRight⟩ :=
          ih (node.child expansion correction true) (first + 2 ^ below.length) (sizeLeft ▸ room)
        refine ⟨right, ?_, sizeRight.trans sizeLeft, fun number => ?_⟩
        · rw [markFrom, if_pos inside, isLeft, Nat.one_shiftLeft]
          exact isRight
        · rw [setRight, setLeft, marks_cons_iff, or_assoc]
      · refine ⟨bitmap, if_neg inside, rfl, fun number => (or_iff_left ?_).symm⟩
        rintro ⟨isNumber, leaf, -, rfl, -⟩
        omega

variable (expansion count) in
/-- The bits of a share at the first so many numbers are marked without fail. -/
theorem mark_spec (share : PointShare) :
    ∃ bitmap, share.mark expansion count = .ok bitmap ∧ bitmap.size = Bits.byteCount count ∧
      ∀ number, Bits.isSet bitmap number = true ↔
        number < count ∧ number < 2 ^ share.corrections.length ∧
          share.eval expansion number = true := by
  have room : count ≤ 8 * (Array.replicate (Bits.byteCount count) (0 : UInt8)).size := by
    rw [Array.size_replicate]
    exact Bits.byteCount_spec count
  obtain ⟨bitmap, marked, size, set⟩ :=
    markFrom_spec expansion share.corrections share.root 0 room
  refine ⟨bitmap, marked, size.trans Array.size_replicate, fun number => ?_⟩
  rw [set, Bits.isSet_replicate]
  constructor
  · rintro (nothing | ⟨inside, leaf, inTree, isNumber, held⟩)
    · cases nothing
    · rw [Nat.zero_add] at isNumber
      subst isNumber
      exact ⟨inside, inTree, held⟩
  · rintro ⟨inside, inTree, held⟩
    exact .inr ⟨inside, number, inTree, (Nat.zero_add number).symm, held⟩

variable (expansion) in
/-- Every share, whether or not it is one of a point function, is read off its bitmap: there is a
bit for each number that is asked for, the one that the share has there, and what is left of the
last byte is zeros. -/
theorem bitAt_mark_eq_eval (share : PointShare) (inTree : count ≤ 2 ^ share.corrections.length) :
    ∃ bitmap, share.mark expansion count = .ok bitmap ∧ bitmap.size = count ⌈/⌉ 8 ∧
      (∀ number < count, Bits.bitAt bitmap number = .ok (share.eval expansion number)) ∧
      ∀ number, count ≤ number → number < 8 * bitmap.size →
        Bits.bitAt bitmap number = .ok false := by
  obtain ⟨bitmap, marked, size, set⟩ := mark_spec expansion count share
  have room : count ≤ 8 * bitmap.size := size ▸ Bits.byteCount_spec count
  refine ⟨bitmap, marked, size.trans (Nat.ceilDiv_eq_add_pred_div count 8).symm, ?_, ?_⟩
  · intro number inside
    rw [Bits.bitAt_eq_isSet (inside.trans_le room), Except.ok.injEq, Bool.eq_iff_iff, set]
    exact ⟨fun marks => marks.2.2, fun held => ⟨inside, inside.trans_le inTree, held⟩⟩
  · intro number beyond within
    rw [Bits.bitAt_eq_isSet within, Except.ok.injEq, ← Bool.not_eq_true, set]
    exact fun marks => absurd marks.1 beyond.not_gt

/-- Six numbers of a tree of eight. The share is set at the last of them and at the one after it,
which the bitmap leaves out. -/
theorem bitAt_mark_six_of_eight :
    let expansion : Expansion := fun seed => (⟨seed, false⟩, ⟨seed, true⟩)
    let share : PointShare := ⟨⟨.zero, true⟩,
      [⟨⟨3, 4⟩, true, false⟩, ⟨⟨5, 6⟩, false, false⟩, ⟨⟨7, 8⟩, true, false⟩]⟩
    ∃ bitmap, 6 ≤ 2 ^ share.corrections.length ∧ share.mark expansion 6 = .ok bitmap ∧
      bitmap.size = 1 ∧ Bits.bitAt bitmap 4 = .ok false ∧ Bits.bitAt bitmap 5 = .ok true ∧
      share.eval expansion 6 = true ∧ Bits.bitAt bitmap 6 = .ok false := by
  intro expansion share
  have inTree : 6 ≤ 2 ^ share.corrections.length := by decide
  obtain ⟨bitmap, marked, size, agrees, padded⟩ := bitAt_mark_eq_eval expansion share inTree
  have one : bitmap.size = 1 := size
  have unset : share.eval expansion 4 = false := by decide
  have set : share.eval expansion 5 = true := by decide
  refine ⟨bitmap, inTree, marked, one, ?_, ?_, by decide, ?_⟩
  · rw [agrees 4 (by decide), unset]
  · rw [agrees 5 (by decide), set]
  · exact padded 6 (Nat.le_refl 6) (by rw [one]; decide)

/-- What is marked number by number is the bitmap of all bits. -/
theorem mark_eq_bitmap (share : PointShare) :
    share.mark expansion count = .ok (share.bitmap expansion count).toArray := by
  obtain ⟨bitmap, marked, size, set⟩ := mark_spec expansion count share
  set bits := share.bits expansion count with areBits
  have length : bits.length = min count (2 ^ share.corrections.length) :=
    length_bitsFrom expansion share.corrections share.root count
  have filled : (bits ++ List.replicate (count - bits.length) false).length = count := by
    rw [List.length_append, List.length_replicate]
    omega
  rw [marked, PointShare.bitmap, ← areBits]
  refine congrArg Except.ok (Bits.bitmap_ext ?_ fun number => ?_)
  · rw [size, List.size_toArray, Bits.length_pack, filled]
  · rw [Bits.isSet_pack, Bool.eq_iff_iff, set, List.getD_eq_getElem?_getD]
    by_cases inside : number < count ∧ number < 2 ^ share.corrections.length
    · have held : bits[number]? = some (share.eval expansion number) :=
        getElem?_bitsFrom expansion share.corrections share.root inside.1 inside.2
      rw [List.getElem?_append_left (by omega), held, Option.getD_some]
      exact ⟨fun marks => marks.2.2, fun set => ⟨inside.1, inside.2, set⟩⟩
    · have unset : (bits ++ List.replicate (count - bits.length) false)[number]?.getD false =
          false := by
        rw [List.getElem?_append_right (by omega), List.getElem?_replicate]
        split <;> rfl
      rw [unset]
      exact ⟨fun marks => absurd ⟨marks.1, marks.2.1⟩ inside, fun wrong => nomatch wrong⟩

end PrivateRetrieval.PointShare
