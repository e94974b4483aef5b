/-
# Two shares make a point function

Walk down both trees of a pair of shares towards the same number. As long as the number agrees
with the point, exactly one of the two nodes has its control bit set. At the first level on
which it leaves the path the correction makes the two nodes equal, and below equal nodes
everything is equal. So the bits of the two leaves differ at the point and nowhere else,
whatever the expansion computes.
-/

import Mathlib
import PrivateRetrieval.Points.Share

namespace PrivateRetrieval

theorem xor_xor_right_cancel (first second : Bool) : (first ^^ (second ^^ first)) = second := by
  rw [Bool.xor_left_comm, Bool.xor_self, Bool.xor_false]

variable (expansion : Expansion)

section Child

variable {first second : ShareNode}

/-- Off the path the children of two nodes of which one is set are equal. -/
theorem ShareNode.child_between_of_leaving (differ : first.control ≠ second.control)
    (goRight : Bool) :
    first.child expansion (.between expansion first second goRight) (!goRight) =
      second.child expansion (.between expansion first second goRight) (!goRight) := by
  obtain ⟨seed, control⟩ := first
  obtain ⟨otherSeed, otherControl⟩ := second
  rcases ofFirst : expansion seed with ⟨⟨firstLeft, firstLeftBit⟩, ⟨firstRight, firstRightBit⟩⟩
  rcases ofSecond : expansion otherSeed with
    ⟨⟨secondLeft, secondLeftBit⟩, ⟨secondRight, secondRightBit⟩⟩
  have cancel : ∀ first second : Label, first ^^^ (first ^^^ second) = second := by
    intro first second
    rw [← Label.xor_assoc, Label.xor_self, Label.xor_comm, Label.xor_zero]
  have cancelOther : ∀ first second : Label, second ^^^ (first ^^^ second) = first := by
    intro first second
    rw [Label.xor_comm first, cancel]
  cases control <;> cases otherControl <;> cases goRight <;>
    simp_all [child, Correction.between, Label.masked_true, Label.masked_false, Label.xor_zero]
  · exact (xor_xor_right_cancel secondRightBit firstRightBit).symm
  · exact (xor_xor_right_cancel secondLeftBit firstLeftBit).symm

/-- On the path exactly one of the children of such nodes is set again. -/
theorem ShareNode.control_child_between_of_staying (differ : first.control ≠ second.control)
    (goRight : Bool) :
    (first.child expansion (.between expansion first second goRight) goRight).control ≠
      (second.child expansion (.between expansion first second goRight) goRight).control := by
  obtain ⟨seed, control⟩ := first
  obtain ⟨otherSeed, otherControl⟩ := second
  rcases ofFirst : expansion seed with ⟨⟨firstLeft, firstLeftBit⟩, ⟨firstRight, firstRightBit⟩⟩
  rcases ofSecond : expansion otherSeed with
    ⟨⟨secondLeft, secondLeftBit⟩, ⟨secondRight, secondRightBit⟩⟩
  cases control <;> cases otherControl <;> cases goRight <;>
    simp_all [child, Correction.between]
  · exact (xor_xor_right_cancel secondLeftBit firstLeftBit).symm
  · exact (xor_xor_right_cancel secondRightBit firstRightBit).symm

end Child

theorem Correction.length_alongPath (point levels : Nat) (first second : ShareNode) :
    (alongPath expansion point levels first second).length = levels := by
  induction levels generalizing first second with
  | zero => rfl
  | succ levels ih => rw [alongPath, List.length_cons, ih]

namespace PointShare

/-- The leaves of two nodes of which one is set differ for the numbers that agree with the point in
the bits below. -/
theorem evalFrom_alongPath (point number levels : Nat) {first second : ShareNode}
    (differ : first.control ≠ second.control) :
    (evalFrom expansion (Correction.alongPath expansion point levels first second) first number ^^
        evalFrom expansion (Correction.alongPath expansion point levels first second) second
          number) =
      decide (∀ level < levels, number.testBit level = point.testBit level) := by
  induction levels generalizing first second with
  | zero =>
      rw [Correction.alongPath, evalFrom, evalFrom, decide_eq_true (by simp)]
      exact bne_iff_ne.mpr differ
  | succ levels ih =>
      rw [Correction.alongPath, evalFrom, evalFrom, Correction.length_alongPath]
      by_cases agrees : number.testBit levels = point.testBit levels
      · rw [agrees, ih (ShareNode.control_child_between_of_staying expansion differ _)]
        refine decide_eq_decide.mpr ⟨fun below level inside => ?_, fun all level inside => ?_⟩
        · rcases Nat.lt_succ_iff_lt_or_eq.mp inside with lower | rfl
          · exact below level lower
          · exact agrees
        · exact all level (Nat.lt_succ_of_lt inside)
      · have leaves : number.testBit levels = !point.testBit levels := Bool.eq_not.mpr agrees
        rw [leaves, ShareNode.child_between_of_leaving expansion differ, Bool.xor_self]
        exact (decide_eq_false fun all => agrees (all levels (Nat.lt_succ_self levels))).symm

/-- Leaves of a tree that lie in the same half on every level are the same leaf. -/
theorem forall_testBit_eq_iff {levels number point : Nat} (isNumber : number < 2 ^ levels)
    (inside : point < 2 ^ levels) :
    (∀ level < levels, number.testBit level = point.testBit level) ↔ number = point := by
  constructor
  · intro agree
    apply Nat.eq_of_testBit_eq
    intro level
    rcases Nat.lt_or_ge level levels with lower | upper
    · exact agree level lower
    · have wide := Nat.pow_le_pow_right Nat.zero_lt_two upper
      rw [Nat.testBit_lt_two_pow (isNumber.trans_le wide),
        Nat.testBit_lt_two_pow (inside.trans_le wide)]
  · rintro rfl level _
    rfl

/-- Whatever seeds the two roots have, the leaves differ at the point only. -/
theorem eval_ofSeeds {point number levels : Nat} (inside : point < 2 ^ levels)
    (isNumber : number < 2 ^ levels) (left right : Label) :
    ((ofSeeds expansion point levels left right).1.eval expansion number ^^
        (ofSeeds expansion point levels left right).2.eval expansion number) =
      decide (number = point) :=
  (evalFrom_alongPath expansion point number levels Bool.false_ne_true).trans
    (decide_eq_decide.mpr (forall_testBit_eq_iff isNumber inside))

/-- Two shares of a point function have the same corrections, one for each level, and their bits
differ at the point and at no other number of the domain. -/
theorem eval_split_ne_iff (tape : Tape) {point number levels : Nat} (inside : point < 2 ^ levels)
    (isNumber : number < 2 ^ levels) :
    let shares := (split expansion point levels tape).1
    shares.1.corrections = shares.2.corrections ∧ shares.1.corrections.length = levels ∧
      ((shares.1.eval expansion number ^^ shares.2.eval expansion number) = true ↔
        number = point) := by
  intro shares
  refine ⟨rfl, Correction.length_alongPath expansion point levels _ _, ?_⟩
  have differ : (shares.1.eval expansion number ^^ shares.2.eval expansion number) =
      decide (number = point) := eval_ofSeeds expansion inside isNumber _ _
  rw [differ, decide_eq_true_iff]

/-- The last number of a domain of 64 bits as the point, and the number before it. -/
theorem eval_split_at_last_number :
    let shares := (split ShareNode.expand (2 ^ 64 - 1) 64 ⟨UInt64.ofNat, 0⟩).1
    2 ^ 64 - 1 < 2 ^ 64 ∧ 2 ^ 64 - 2 < 2 ^ 64 ∧ shares.1.corrections.length = 64 ∧
      (shares.1.eval ShareNode.expand (2 ^ 64 - 1) ^^
        shares.2.eval ShareNode.expand (2 ^ 64 - 1)) = true ∧
      (shares.1.eval ShareNode.expand (2 ^ 64 - 2) ^^
        shares.2.eval ShareNode.expand (2 ^ 64 - 2)) = false := by
  have last : 2 ^ 64 - 1 < 2 ^ 64 := by decide
  have neighbour : 2 ^ 64 - 2 < 2 ^ 64 := by decide
  obtain ⟨-, length, atPoint⟩ :=
    eval_split_ne_iff ShareNode.expand ⟨UInt64.ofNat, 0⟩ last last
  obtain ⟨-, -, elsewhere⟩ :=
    eval_split_ne_iff ShareNode.expand ⟨UInt64.ofNat, 0⟩ last neighbour
  refine ⟨last, neighbour, length, atPoint.mpr rfl, ?_⟩
  rw [← Bool.not_eq_true, elsewhere]
  decide

/-- The way to a leaf is given by the bits of its number, as many as there are levels. -/
theorem evalFrom_congr {corrections : List Correction} {number other : Nat}
    (agree : ∀ level < corrections.length, number.testBit level = other.testBit level)
    (node : ShareNode) :
    evalFrom expansion corrections node number = evalFrom expansion corrections node other := by
  induction corrections generalizing node with
  | nil => rfl
  | cons correction below ih =>
      rw [evalFrom, evalFrom, agree below.length (Nat.lt_succ_self _)]
      exact ih (fun level inside => agree level (Nat.lt_succ_of_lt inside)) _

/-- A leaf in the left half lies below the left child. -/
theorem evalFrom_cons_left (correction : Correction) {below : List Correction} (node : ShareNode)
    {number : Nat} (isLeft : number < 2 ^ below.length) :
    evalFrom expansion (correction :: below) node number =
      evalFrom expansion below (node.child expansion correction false) number := by
  rw [evalFrom, Nat.testBit_lt_two_pow isLeft]

/-- A leaf in the right half lies below the right child. -/
theorem evalFrom_cons_right (correction : Correction) {below : List Correction} (node : ShareNode)
    {rest : Nat} (inRight : rest < 2 ^ below.length) :
    evalFrom expansion (correction :: below) node (2 ^ below.length + rest) =
      evalFrom expansion below (node.child expansion correction true) rest := by
  have isRight : (2 ^ below.length + rest).testBit below.length = true := by
    rw [Nat.testBit_two_pow_add_eq, Nat.testBit_lt_two_pow inRight]
    rfl
  rw [evalFrom, isRight]
  exact evalFrom_congr expansion (fun level inside => Nat.testBit_two_pow_add_gt inside rest) _

theorem length_bitsFrom (corrections : List Correction) (node : ShareNode) (wanted : Nat) :
    (bitsFrom expansion corrections node wanted).length = min wanted (2 ^ corrections.length) := by
  induction corrections generalizing node wanted with
  | nil =>
      cases wanted with
      | zero => rfl
      | succ wanted =>
          rw [List.length_nil, Nat.pow_zero,
            Nat.min_eq_right (Nat.succ_le_succ (Nat.zero_le wanted))]
          rfl
  | cons correction below ih =>
      cases wanted with
      | zero => rw [Nat.zero_min]; rfl
      | succ wanted =>
          rw [bitsFrom, Nat.one_shiftLeft, List.length_append, ih, ih, List.length_cons,
            Nat.pow_succ]
          · omega
          · exact fun absent => nomatch absent

/-- The bits of all leaves are those of the leaves one by one. -/
theorem getElem?_bitsFrom (corrections : List Correction) (node : ShareNode) {wanted number : Nat}
    (isWanted : number < wanted) (inTree : number < 2 ^ corrections.length) :
    (bitsFrom expansion corrections node wanted)[number]? =
      some (evalFrom expansion corrections node number) := by
  induction corrections generalizing node wanted number with
  | nil =>
      obtain rfl : number = 0 := Nat.lt_one_iff.mp inTree
      obtain ⟨wanted, rfl⟩ : ∃ fewer, wanted = fewer + 1 := ⟨wanted - 1, by omega⟩
      rfl
  | cons correction below ih =>
      obtain ⟨wanted, rfl⟩ : ∃ fewer, wanted = fewer + 1 := ⟨wanted - 1, by omega⟩
      have length := length_bitsFrom expansion below (node.child expansion correction false)
        (wanted + 1)
      rw [bitsFrom, Nat.one_shiftLeft]
      · by_cases isLeft : number < 2 ^ below.length
        · rw [evalFrom_cons_left expansion correction node isLeft,
            List.getElem?_append_left (by omega)]
          exact ih _ isWanted isLeft
        · obtain ⟨rest, rfl⟩ := Nat.exists_eq_add_of_le (Nat.not_lt.mp isLeft)
          have inRight : rest < 2 ^ below.length := by
            rw [List.length_cons, Nat.pow_succ] at inTree
            omega
          rw [evalFrom_cons_right expansion correction node inRight,
            List.getElem?_append_right (by omega), length]
          have place : 2 ^ below.length + rest - min (wanted + 1) (2 ^ below.length) = rest := by
            omega
          rw [place]
          exact ih _ (by omega) inRight
      · exact fun absent => nomatch absent

/-- The bits of two shares of a point function differ at the point only. -/
theorem bits_ofSeeds {point levels count : Nat} (inside : point < count)
    (enough : count ≤ 2 ^ levels) (left right : Label) :
    ((ofSeeds expansion point levels left right).1.bits expansion count).length = count ∧
      ((ofSeeds expansion point levels left right).2.bits expansion count).length = count ∧
      ∀ number < count,
        (List.zipWith Bool.xor ((ofSeeds expansion point levels left right).1.bits expansion count)
          ((ofSeeds expansion point levels left right).2.bits expansion count))[number]? =
            some (decide (number = point)) := by
  set leftRoot : ShareNode := ⟨left, false⟩
  set rightRoot : ShareNode := ⟨right, true⟩
  set path := Correction.alongPath expansion point levels leftRoot rightRoot
  have length : path.length = levels := Correction.length_alongPath expansion point levels _ _
  have lengthBits : ∀ node : ShareNode, (bitsFrom expansion path node count).length = count := by
    intro node
    rw [length_bitsFrom, length]
    exact Nat.min_eq_left enough
  refine ⟨lengthBits leftRoot, lengthBits rightRoot, ?_⟩
  intro number isNumber
  have inTree : number < 2 ^ path.length := length ▸ Nat.lt_of_lt_of_le isNumber enough
  show (List.zipWith Bool.xor (bitsFrom expansion path leftRoot count)
    (bitsFrom expansion path rightRoot count))[number]? = _
  have isLeft := getElem?_bitsFrom expansion path leftRoot isNumber inTree
  have isRight := getElem?_bitsFrom expansion path rightRoot isNumber inTree
  rw [List.getElem?_zipWith_eq_some.mpr ⟨_, _, isLeft, isRight, rfl⟩]
  rw [evalFrom_alongPath expansion point number levels (Bool.false_ne_true)]
  exact congrArg some (decide_eq_decide.mpr
    (forall_testBit_eq_iff (isNumber.trans_le enough) (inside.trans_le enough)))

end PointShare

end PrivateRetrieval
