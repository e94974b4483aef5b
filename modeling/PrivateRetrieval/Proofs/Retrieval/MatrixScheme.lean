/-
# The matrix scheme

The rows of a table are arranged in lines, and the client and the servers derive the arrangement
each on its own, from the shape of the table. The client draws a bit for every line. One server
adds up the lines whose bits are set, and the other one does so with one bit the other way round,
that of the line with the row. So the two answers add up to that line.

What a server gets to see is the drawn bits, or the drawn bits with one of them turned round.
Turning one bit round is a bijection, so if the bits are uniform, either of them is uniform, and so
both are distributed alike for all rows. A bit is one bit of a word of the tape. As many words show
one value as the other, so uniform words give uniform bits.
-/

import Mathlib
import PrivateRetrieval.Proofs.Retrieval.Serving

namespace PrivateRetrieval

/-! ## The arrangement in lines -/

namespace Shape

variable {shape : Shape}

theorem height_eq (filled : 0 < shape.rowCount) :
    shape.grid.height = (shape.rowCount - 1) / shape.grid.width + 1 := by
  rw [grid]
  split
  · rw [Nat.div_one, Nat.sub_add_cancel filled]
  · rfl

/-- The lines have room for all rows, and each of them has one. -/
theorem rowCount_bounds (filled : 0 < shape.rowCount) :
    shape.rowCount ≤ shape.grid.width * shape.grid.height ∧
      shape.grid.width * (shape.grid.height - 1) < shape.rowCount := by
  have whole := Nat.div_add_mod (shape.rowCount - 1) shape.grid.width
  have column := Nat.mod_lt (shape.rowCount - 1) shape.width_pos
  rw [height_eq filled, Nat.add_sub_cancel, Nat.mul_succ]
  omega

end Shape

/-- Every row is found with the matrix scheme, on every tape. The client is made of the hint that
the servers give, and derives the arrangement in lines from it. The lines have room for all rows,
and none of them is empty, so that the line of the row is one of them. Both servers accept the
selections of lines, and what the client makes of their answers is the row. -/
theorem Table.matrix_finds_row {table : Table} {row : Nat} (inside : row < table.rowCount)
    (drawing tape : Tape) :
    let grid := table.shape.grid
    0 < grid.width ∧ table.rowCount ≤ grid.width * grid.height ∧
      grid.width * (grid.height - 1) < table.rowCount ∧ row / grid.width < grid.height ∧
      ∃ hint client queries pending later answers given,
        table.hint (HintRequest.fresh .matrix drawing).1 = .ok hint ∧
        Client.ofHint hint drawing = .ok (client, drawing) ∧
        client.query row tape = (.ok (queries, pending), client, later) ∧
        table.answer queries.left = .ok answers.left ∧
        table.answer queries.right = .ok answers.right ∧
        client.reconstruct pending answers = .ok (given, client) ∧ table.row row = .ok given := by
  have filled : 0 < table.shape.rowCount := Nat.zero_lt_of_lt inside
  obtain ⟨room, fullBefore⟩ := Shape.rowCount_bounds filled
  refine ⟨table.shape.width_pos, room, fullBefore, Shape.line_lt_height inside, ?_⟩
  obtain ⟨-, left, right, isLeft, isRight, found⟩ := Table.selectionsOf_spec inside tape
  obtain ⟨answeredLeft, answeredRight⟩ := Client.answered_matrix isLeft isRight
  refine ⟨.matrix table.shape, .matrix table.shape,
    (table.shape.selectionsOf row tape).1.map .matrix, .matrix (row % table.shape.grid.width),
    (table.shape.selectionsOf row tape).2, ⟨.matrix left, .matrix right⟩, table.rowAt row,
    rfl, rfl, ?_, answeredLeft, answeredRight, ?_, Table.row_eq_rowAt inside⟩
  · simp only [Client.query, Client.check_of_lt inside]
  · simp only [Client.reconstruct, found]
    rfl

/-- Three rows are arranged in two lines of two, and the last one is found in the line that lacks
a row. -/
theorem matrix_finds_last_of_three :
    ∃ table : Table, table.rowCount = 3 ∧ table.shape.grid = ⟨2, 2⟩ ∧
      ∃ client queries pending later answers,
        Client.query client 2 .circle = (.ok (queries, pending), client, later) ∧
        table.answer queries.left = .ok answers.left ∧
        table.answer queries.right = .ok answers.right ∧
        client.reconstruct pending answers = .ok ([4], client) := by
  have works : (Table.ofRows [[1], [2], [4]]).toOption.map
      (fun table => (table.shape, table.shape.grid, table.row 2)) =
      some (⟨3, 1⟩, ⟨2, 2⟩, .ok [4]) := by decide +kernel
  cases made : Table.ofRows [[1], [2], [4]] with
  | error failure =>
      rw [made] at works
      cases works
  | ok table =>
      rw [made] at works
      simp only [Except.toOption, Option.map_some, Option.some.injEq, Prod.mk.injEq] at works
      obtain ⟨shape, grid, last⟩ := works
      have rowCount : table.rowCount = 3 := congrArg Shape.rowCount shape
      have inside : 2 < table.rowCount := by omega
      obtain ⟨-, -, -, -, hint, client, queries, pending, later, answers, given, -, -, asks, isLeft,
        isRight, found, isRow⟩ := Table.matrix_finds_row inside .circle .circle
      cases last.symm.trans isRow
      exact ⟨table, rowCount, grid, client, queries, pending, later, answers, asks, isLeft, isRight,
        found⟩

/-! ## Uniform bits -/

section Uniform

variable {α β : Type} [Fintype α] [Nonempty α] [Fintype β] [Nonempty β]

/-- A function of a uniform choice is uniform, if any two of its values can be interchanged by a
permutation of the choices. -/
theorem map_uniformOfFintype (f : α → β)
    (alike : ∀ first second, ∃ swap : α ≃ α, ∀ choice,
      f (swap choice) = second ↔ f choice = first) :
    (PMF.uniformOfFintype α).map f = PMF.uniformOfFintype β := by
  classical
  set law := (PMF.uniformOfFintype α).map f with isLaw
  have equal : ∀ first second, law first = law second := by
    intro first second
    obtain ⟨swap, swaps⟩ := alike first second
    rw [isLaw, PMF.map_apply, PMF.map_apply,
      ← swap.tsum_eq fun choice => if second = _ then _ else _]
    refine tsum_congr fun choice => ?_
    simp only [PMF.uniformOfFintype_apply, @eq_comm _ second, swaps, @eq_comm _ first]
  ext value
  have total : law value * Fintype.card β = 1 := by
    rw [← law.tsum_coe, tsum_fintype, Finset.sum_congr rfl fun other _ => equal other value,
      Finset.sum_const, Finset.card_univ, nsmul_eq_mul, mul_comm]
  rw [PMF.uniformOfFintype_apply]
  exact ENNReal.eq_inv_of_mul_eq_one_left total

/-- A bijection takes a uniform choice to a uniform choice. -/
theorem map_uniformOfFintype_of_bijective {f : α → α} (bijective : f.Bijective) :
    (PMF.uniformOfFintype α).map f = PMF.uniformOfFintype α := by
  classical
  refine map_uniformOfFintype f fun first second => ?_
  obtain ⟨one, rfl⟩ := bijective.surjective first
  obtain ⟨two, rfl⟩ := bijective.surjective second
  refine ⟨Equiv.swap one two, fun choice => ?_⟩
  rw [bijective.injective.eq_iff, bijective.injective.eq_iff, Equiv.swap_apply_eq_iff,
    Equiv.swap_apply_right]

end Uniform

/-! ## Drawn bits -/

/-- The bit that a word shows. -/
def coinOf (word : UInt64) : Bool := word &&& 0x80000000 != 0

theorem coinOf_eq_getLsbD (word : UInt64) : coinOf word = word.toBitVec.getLsbD 31 := by
  have masked : word.toBitVec &&& BitVec.twoPow 64 31 =
      if word.toBitVec.getLsbD 31 then BitVec.twoPow 64 31 else 0#64 := BitVec.and_twoPow ..
  have isZero : word &&& 0x80000000 = 0 ↔ word.toBitVec &&& BitVec.twoPow 64 31 = 0#64 :=
    UInt64.toBitVec_inj.symm
  rw [coinOf, bne, Bool.eq_iff_iff, Bool.not_eq_true', beq_eq_false_iff_ne, Ne, isZero, masked]
  cases word.toBitVec.getLsbD 31 with
  | false => simp
  | true => exact iff_of_true (by decide) rfl

/-- The words come in pairs that show different bits and are otherwise the same. -/
theorem coinOf_xor (word : UInt64) : coinOf (word ^^^ 0x80000000) = !coinOf word := by
  rw [coinOf_eq_getLsbD, coinOf_eq_getLsbD, UInt64.toBitVec_xor, BitVec.getLsbD_xor]
  exact Bool.xor_true _

namespace Tape

variable {count : Nat} {tape : Tape}

/-- The bits that are drawn are those that the next words show. -/
theorem coins_eq (count : Nat) (tape : Tape) :
    tape.coins count =
      (List.ofFn fun place : Fin count => coinOf (tape.word (tape.position + place)),
        { tape with position := tape.position + count }) := by
  induction count generalizing tape with
  | zero => rfl
  | succ count ih =>
      have rest := ih tape.coin.2
      have later : ∀ place, tape.position + 1 + place = tape.position + (place + 1) := by omega
      simp only [coin, next, later] at rest
      simp only [coins, coin, next, rest, List.ofFn_succ, coinOf, Fin.val_zero, Fin.val_succ,
        Nat.add_zero]

/-- The bits that a client draws. -/
def bits (count : Nat) (tape : Tape) : List.Vector Bool count :=
  ⟨(tape.coins count).1, (coins_spec count tape).1⟩

/-- The bits are those that the next words show. -/
theorem bits_eq (count : Nat) (tape : Tape) :
    tape.bits count =
      List.Vector.ofFn fun place => coinOf (tape.word (tape.position + place)) := by
  refine List.Vector.toList_injective ?_
  rw [List.Vector.toList_ofFn]
  exact congrArg Prod.fst (coins_eq count tape)

/-- The tape with other words in the places that are read next. -/
def withNext (tape : Tape) (words : Fin count → BitVec 64) : Tape where
  word := fun place =>
    if ahead : tape.position ≤ place ∧ place - tape.position < count then
      .ofBitVec (words ⟨place - tape.position, ahead.2⟩)
    else tape.word place
  position := tape.position

/-- A tape whose next words are uniform. -/
noncomputable def uniformNext (count : Nat) (tape : Tape) : PMF Tape :=
  (PMF.uniformOfFintype (Fin count → BitVec 64)).map tape.withNext

theorem get_bits_withNext (words : Fin count → BitVec 64) (place : Fin count) :
    ((tape.withNext words).bits count).get place = coinOf (.ofBitVec (words place)) := by
  have drawn : (tape.withNext words).word (tape.position + place) = .ofBitVec (words place) := by
    simp [withNext]
  rw [bits_eq, List.Vector.get_ofFn]
  exact congrArg coinOf drawn

/-- The permutation of words that turns the bits round that they show, or leaves them. -/
def turn (turned : Bool) : BitVec 64 ≃ BitVec 64 :=
  Function.Involutive.toPerm (fun word => word ^^^ if turned then 0x80000000#64 else 0#64)
    fun word => (BitVec.xor_assoc ..).trans (by rw [BitVec.xor_self, BitVec.xor_zero])

theorem coinOf_turn (turned : Bool) (word : BitVec 64) :
    coinOf (.ofBitVec (turn turned word)) = (coinOf (.ofBitVec word) ^^ turned) := by
  cases turned with
  | false => simp [turn]
  | true =>
      rw [Bool.xor_true, ← coinOf_xor]
      rfl

/-- Uniform words show uniform bits. -/
theorem map_bits_uniformNext (count : Nat) (tape : Tape) :
    (tape.uniformNext count).map (bits count) =
      PMF.uniformOfFintype (List.Vector Bool count) := by
  rw [uniformNext, PMF.map_comp]
  refine map_uniformOfFintype _ fun first second => ?_
  -- Where the two differ, the words of each pair change places.
  refine ⟨Equiv.piCongrRight fun place => turn (first.get place ^^ second.get place),
    fun words => ?_⟩
  have byPlace : ∀ one other : List.Vector Bool count,
      one = other ↔ ∀ place, one.get place = other.get place :=
    fun one other => ⟨fun same _ => same ▸ rfl, List.Vector.ext⟩
  have cancels : ∀ drawn one other : Bool, (drawn ^^ (one ^^ other)) = other ↔ drawn = one := by
    decide
  rw [byPlace, byPlace]
  refine forall_congr' fun place => ?_
  rw [Function.comp_apply, Function.comp_apply, get_bits_withNext, get_bits_withNext,
    Equiv.piCongrRight_apply, Pi.map_apply, coinOf_turn]
  exact cancels ..

end Tape

/-! ## What the servers see -/

/-- Turning round the bit of one line is a bijection on the selections of lines: it is its own
inverse. -/
theorem Shape.bijective_selectionsAround (line count : Nat) :
    Function.Bijective fun lines : List.Vector Bool count =>
      (⟨(selectionsAround line lines.toList).right,
        (selectionsAround_spec line lines.toList).1.trans lines.toList_length⟩ :
          List.Vector Bool count) := by
  refine Function.Involutive.bijective fun lines => Subtype.ext ?_
  show (lines.toList.modify line not).modify line not = lines.toList
  rw [List.modify_modify_eq, (funext Bool.not_not : not ∘ not = id), List.modify_id]

namespace Client

/-- What the servers are sent for a row, or for none. -/
def sent (client : Client) (target : Option Nat) (tape : Tape) : Outcome (Sides Query) :=
  match target with
  | some row => (client.query row tape).1.map Prod.fst
  | none => (client.dummy tape).1

variable {shape : Shape} {target : Option Nat}

/-- The left server is sent the drawn bits, whatever the row is, and the right server what a
bijection makes of them. What is sent for no row is what is sent for the first one, if there is
one. -/
theorem sent_matrix (isRow : ∀ row ∈ target, row < shape.rowCount) :
    ∃ turned : List.Vector Bool shape.grid.height → List.Vector Bool shape.grid.height,
      turned.Bijective ∧ ∀ tape : Tape, (Client.matrix shape).sent target tape =
        .ok ⟨.matrix (tape.bits shape.grid.height).toList,
          .matrix (turned (tape.bits shape.grid.height)).toList⟩ := by
  cases target with
  | some row =>
      have inside : row < shape.rowCount := isRow row rfl
      refine ⟨_, Shape.bijective_selectionsAround (row / shape.grid.width) _, fun tape => ?_⟩
      simp only [sent, query, Shape.check, if_pos inside]
      rfl
  | none =>
      by_cases empty : shape.rowCount = 0
      · have flat : shape.grid.height = 0 := by rw [Shape.grid, if_pos (Or.inl empty), empty]
        refine ⟨id, Function.bijective_id, fun tape => ?_⟩
        have none : (tape.bits shape.grid.height).toList = [] :=
          List.eq_nil_of_length_eq_zero ((List.Vector.toList_length _).trans flat)
        simp only [sent, dummy, if_pos empty, id, none]
        rfl
      · refine ⟨_, Shape.bijective_selectionsAround (0 / shape.grid.width) _, fun tape => ?_⟩
        simp only [sent, dummy, if_neg empty]
        rfl

/-- Queries of the matrix scheme hide their row from each server, perfectly. On one tape the left
server is sent the same for all rows, and what the right server is sent is a bijection of the drawn
bits for every row. So on uniform words each of the two is sent uniform bits, whether a row is
queried or none. -/
theorem matrix_hides_row (shape : Shape) :
    (∀ row < shape.rowCount, ∀ other < shape.rowCount, ∀ tape,
      ((Client.matrix shape).sent (some row) tape).map Sides.left =
        ((Client.matrix shape).sent (some other) tape).map Sides.left) ∧
    (∀ row < shape.rowCount,
      ∃ turned : List.Vector Bool shape.grid.height → List.Vector Bool shape.grid.height,
        turned.Bijective ∧ ∀ tape : Tape, (Client.matrix shape).sent (some row) tape =
          .ok ⟨.matrix (tape.bits shape.grid.height).toList,
            .matrix (turned (tape.bits shape.grid.height)).toList⟩) ∧
    ∀ target, (∀ row ∈ target, row < shape.rowCount) → ∀ tape : Tape,
      (tape.uniformNext shape.grid.height).map
          (fun tape => ((Client.matrix shape).sent target tape).map Sides.left) =
        (PMF.uniformOfFintype (List.Vector Bool shape.grid.height)).map
          (fun lines => .ok (.matrix lines.toList)) ∧
      (tape.uniformNext shape.grid.height).map
          (fun tape => ((Client.matrix shape).sent target tape).map Sides.right) =
        (PMF.uniformOfFintype (List.Vector Bool shape.grid.height)).map
          (fun lines => .ok (.matrix lines.toList)) := by
  have isRow : ∀ row < shape.rowCount, ∀ member ∈ some row, member < shape.rowCount := by
    rintro row inside _ ⟨⟩
    exact inside
  refine ⟨?_, ?_, ?_⟩
  · intro row inside other otherInside tape
    obtain ⟨_, -, isSent⟩ := sent_matrix (isRow row inside)
    obtain ⟨_, -, isSentOther⟩ := sent_matrix (isRow other otherInside)
    rw [isSent, isSentOther]
    rfl
  · intro row inside
    exact sent_matrix (isRow row inside)
  · intro target isRow tape
    obtain ⟨turned, bijective, isSent⟩ := sent_matrix isRow
    constructor
    · rw [← Tape.map_bits_uniformNext _ tape, PMF.map_comp]
      exact congrArg (PMF.map · _) (funext fun tape => by rw [isSent]; rfl)
    · rw [← map_uniformOfFintype_of_bijective bijective, ← Tape.map_bits_uniformNext _ tape,
        PMF.map_comp, PMF.map_comp]
      exact congrArg (PMF.map · _) (funext fun tape => by rw [isSent]; rfl)

/-- Three rows are arranged in two lines. Which selection of the two lines the right server is sent
says nothing about which of the rows is queried, or whether one is. -/
theorem matrix_hides_last_of_three :
    ((Client.matrix ⟨3, 1⟩).sent (some 2) .circle).map Sides.left =
        ((Client.matrix ⟨3, 1⟩).sent (some 0) .circle).map Sides.left ∧
      (Tape.circle.uniformNext 2).map
          (fun tape => ((Client.matrix ⟨3, 1⟩).sent (some 2) tape).map Sides.right) =
        (PMF.uniformOfFintype (List.Vector Bool 2)).map (fun lines => .ok (.matrix lines.toList)) ∧
      (Tape.circle.uniformNext 2).map
          (fun tape => ((Client.matrix ⟨3, 1⟩).sent none tape).map Sides.right) =
        (PMF.uniformOfFintype (List.Vector Bool 2)).map
          (fun lines => .ok (.matrix lines.toList)) := by
  have twoLines : (Shape.grid ⟨3, 1⟩).height = 2 := by decide +kernel
  obtain ⟨sameLeft, -, laws⟩ := matrix_hides_row ⟨3, 1⟩
  rw [twoLines] at laws
  exact ⟨sameLeft 2 (by decide) 0 (by decide) .circle, (laws (some 2) (by simp) .circle).2,
    (laws none (by simp) .circle).2⟩

end Client

end PrivateRetrieval
