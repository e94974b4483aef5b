/-
# What the Rice decoder accepts

The decoder accepts the format and nothing else. A sequence is well formed if its numbers make
sense, its bits are as many codes as it names and fewer than eight bits more, and the sums of the
gaps fit a word of 32 bits; it then stands for these sums. Every other sequence is refused with a
fault of the format.

Reading a code back is known from the round trip. The other direction is about bits that nobody
encoded: what is read off their front is the code of the gap that is returned, because quotient and
remainder can be told apart in the gap. For this the quotient must not lose digits when it is
shifted, and it has too few of them for that as long as there are fewer than `2 ^ 29` bytes.
-/

import PrivateRetrieval.Proofs.Codes.RiceRoundTrip

namespace PrivateRetrieval

namespace Bits

/-- The digits of a number that ends in given bits. -/
theorem digits_shift_add_value (high : Nat) (bits : List Bool) :
    digits bits.length ((high <<< bits.length) + value bits) = bits := by
  rw [Nat.shiftLeft_eq, ← digits_mod, Nat.mul_add_mod_self_right, digits_mod, digits_value]

/-- What is left of a number without the bits that it ends in. -/
theorem shift_add_value_shiftRight (high : Nat) (bits : List Bool) :
    ((high <<< bits.length) + value bits) >>> bits.length = high := by
  rw [Nat.shiftLeft_eq, Nat.shiftRight_eq_div_pow, Nat.mul_comm,
    Nat.mul_add_div (Nat.two_pow_pos _), Nat.div_eq_of_lt (value_lt bits), Nat.add_zero]

end Bits

namespace Rice

open Bits

/-! ## Single codes -/

section Codes

variable {parameter gap : Nat} {reader after : Reader} {failure : Failure}

/-- A gap that is read off not too many bits is there in code. -/
theorem takes_code_of_readCode (known : parameter ≤ maxParameter)
    (short : reader.remaining ≤ 2 ^ 32) (read : readCode parameter reader = .ok (gap, after)) :
    reader.Takes (code parameter gap) after ∧ gap < UInt32.size := by
  rw [readCode] at read
  obtain ⟨quotient, between, takesQuotient, isQuotient⟩ | ⟨-, _, -, fails⟩ :=
    reader.readUnary_cases
  swap
  · rw [fails] at read
    cases read
  obtain ⟨remainder, left, takesRemainder, rfl, isRemainder⟩ | ⟨-, _, -, fails⟩ :=
    between.read_cases known
  swap
  · simp only [isQuotient, fails] at read
    cases read
  -- The quotient has at most 32 digits, since every one of it is a bit.
  have few : quotient < 2 ^ 32 := by
    have taken := takesQuotient.length_add_remaining
    rw [unary, List.length_append, List.length_replicate, List.length_singleton] at taken
    omega
  have fits : quotient <<< remainder.length < UInt64.size := by
    rw [Nat.shiftLeft_eq]
    calc quotient * 2 ^ remainder.length
        < 2 ^ 32 * 2 ^ remainder.length :=
          Nat.mul_lt_mul_of_pos_right few (Nat.two_pow_pos _)
      _ ≤ 2 ^ 32 * 2 ^ 32 :=
          Nat.mul_le_mul_left _ (Nat.pow_le_pow_right Nat.two_pos known)
  simp only [isQuotient, isRemainder, Nat.mod_eq_of_lt fits] at read
  split at read
  · rename_i small
    cases read
    refine ⟨?_, small⟩
    rw [code_eq, shift_add_value_shiftRight, digits_shift_add_value]
    exact takesQuotient.append takesRemainder
  · cases read

theorem readCode_eq_ok_iff (known : parameter ≤ maxParameter)
    (short : reader.remaining ≤ 2 ^ 32) :
    readCode parameter reader = .ok (gap, after) ↔
      reader.Takes (code parameter gap) after ∧ gap < UInt32.size := by
  constructor
  · exact takes_code_of_readCode known short
  · rintro ⟨takes, small⟩
    exact readCode_code small known takes

/-- Bits that do not begin with a code are refused with a fault of the format. -/
theorem fault_of_readCode (known : parameter ≤ maxParameter)
    (failed : readCode parameter reader = .error failure) :
    ∃ fault, failure = .undecodable fault := by
  rw [readCode] at failed
  obtain ⟨quotient, between, -, isQuotient⟩ | ⟨-, _, -, fails⟩ := reader.readUnary_cases
  swap
  · rw [fails] at failed
    cases failed
    exact ⟨_, rfl⟩
  obtain ⟨remainder, left, -, -, isRemainder⟩ | ⟨-, _, -, fails⟩ := between.read_cases known
  · simp only [isQuotient, isRemainder] at failed
    split at failed
    · cases failed
    · cases failed
      exact ⟨_, rfl⟩
  · simp only [isQuotient, fails] at failed
    cases failed
    exact ⟨_, rfl⟩

end Codes

/-! ## Sequences of codes -/

/-- Numbers are given as words if they fit words. -/
theorem map_toNat_eq_iff {numbers : List UInt32} {sums : List Nat} :
    numbers.map UInt32.toNat = sums ↔
      (∀ sum ∈ sums, sum < UInt32.size) ∧ numbers = sums.map UInt32.ofNat := by
  constructor
  · rintro rfl
    refine ⟨?_, ?_⟩
    · intro sum member
      obtain ⟨number, -, rfl⟩ := List.mem_map.mp member
      exact number.toNat_lt
    · simp [List.map_map, Function.comp_def]
  · rintro ⟨small, rfl⟩
    rw [List.map_map]
    conv_rhs => rw [← List.map_id sums]
    exact List.map_congr_left fun sum member => UInt32.toNat_ofNat_of_lt' (small sum member)

/-- Numbers that are the sums of gaps begin with the one to which the gaps are added. -/
theorem exists_cons_of_sums {numbers : List UInt32} {deltas : List Nat} {first : Nat}
    (sums : numbers.map UInt32.toNat = deltas.scanl (· + ·) first) :
    ∃ number rest, numbers = number :: rest ∧ number.toNat = first := by
  have begins := congrArg List.head? sums
  rw [List.head?_scanl, List.head?_map, Option.map_eq_some_iff] at begins
  obtain ⟨number, isHead, isFirst⟩ := begins
  obtain ⟨rest, rfl⟩ := List.head?_eq_some_iff.mp isHead
  exact ⟨number, rest, rfl, isFirst⟩

section Sequences

variable {parameter count : Nat} {last : UInt32} {reader after : Reader} {numbers : List UInt32}
  {failure : Failure}

/-- A number is read by reading its gap, as long as it fits a word, and then the numbers after
it. -/
theorem readNumbers_succ_eq_ok_iff :
    readNumbers parameter (count + 1) last reader = .ok (numbers, after) ↔
      ∃ gap others number rest, readCode parameter reader = .ok (gap, others) ∧
        number.toNat = last.toNat + gap ∧
        readNumbers parameter count number others = .ok (rest, after) ∧
        numbers = number :: rest := by
  simp only [readNumbers, bind, Except.bind]
  constructor
  · intro read
    cases first : readCode parameter reader with
    | error failure =>
        rw [first] at read
        cases read
    | ok result =>
        obtain ⟨gap, others⟩ := result
        rw [first] at read
        dsimp only at read
        split at read
        · rename_i small
          cases rest : readNumbers parameter count (UInt32.ofNat (last.toNat + gap)) others with
          | error failure =>
              rw [rest] at read
              cases read
          | ok result =>
              obtain ⟨more, left⟩ := result
              rw [rest] at read
              cases read
              exact ⟨gap, others, _, more, rfl, UInt32.toNat_ofNat_of_lt' small, rest, rfl⟩
        · cases read
  · rintro ⟨gap, others, number, rest, first, isNumber, read, rfl⟩
    have small : last.toNat + gap < UInt32.size := isNumber ▸ number.toNat_lt
    rw [first]
    dsimp only
    rw [if_pos small, ← isNumber, UInt32.ofNat_toNat, read]
    rfl

/-- Numbers are read if as many codes are taken, and they are the sums of their gaps. -/
theorem readNumbers_eq_ok_iff (known : parameter ≤ maxParameter)
    (short : reader.remaining ≤ 2 ^ 32) :
    readNumbers parameter count last reader = .ok (numbers, after) ↔
      ∃ gaps : List Nat, gaps.length = count ∧
        reader.Takes (gaps.flatMap (code parameter)) after ∧
        (last :: numbers).map UInt32.toNat = gaps.scanl (· + ·) last.toNat := by
  induction count generalizing last reader numbers with
  | zero =>
      constructor
      · intro read
        cases read
        exact ⟨[], rfl, .nil _, rfl⟩
      · rintro ⟨gaps, none, takes, sums⟩
        rw [List.length_eq_zero_iff] at none
        subst none
        cases takes
        rw [List.scanl_nil, List.map_cons, List.cons.injEq, List.map_eq_nil_iff] at sums
        rw [sums.2]
        rfl
  | succ count ih =>
      constructor
      · intro read
        obtain ⟨gap, others, number, rest, first, isNumber, readRest, rfl⟩ :=
          readNumbers_succ_eq_ok_iff.mp read
        obtain ⟨takesFirst, -⟩ := (readCode_eq_ok_iff known short).mp first
        have fewer := takesFirst.length_add_remaining
        obtain ⟨gaps, length, takesRest, sums⟩ := (ih (by omega)).mp readRest
        refine ⟨gap :: gaps, ?_, ?_, ?_⟩
        · rw [List.length_cons, length]
        · rw [List.flatMap_cons]
          exact takesFirst.append takesRest
        · rw [List.map_cons, sums, isNumber, List.scanl_cons]
      · rintro ⟨gaps, length, takes, sums⟩
        obtain ⟨gap, gaps, rfl⟩ : ∃ gap others, gaps = gap :: others :=
          List.exists_cons_of_length_eq_add_one length
        rw [List.length_cons, Nat.add_right_cancel_iff] at length
        rw [List.scanl_cons, List.map_cons, List.cons.injEq] at sums
        obtain ⟨-, sums⟩ := sums
        -- The sums begin with the number that the first gap leads to.
        obtain ⟨number, others, rfl, isNumber⟩ := exists_cons_of_sums sums
        have small : last.toNat + gap < UInt32.size := isNumber ▸ number.toNat_lt
        rw [List.flatMap_cons] at takes
        obtain ⟨between, takesFirst, takesRest⟩ := takes.split
        have fewer := takesFirst.length_add_remaining
        have read : readNumbers parameter count number between = .ok (others, after) :=
          (ih (by omega)).mpr ⟨gaps, length, takesRest, isNumber.symm ▸ sums⟩
        exact readNumbers_succ_eq_ok_iff.mpr
          ⟨gap, between, number, others, readCode_code (by omega) known takesFirst, isNumber, read,
            rfl⟩

/-- Numbers that cannot be read are refused with a fault of the format. -/
theorem fault_of_readNumbers (known : parameter ≤ maxParameter)
    (failed : readNumbers parameter count last reader = .error failure) :
    ∃ fault, failure = .undecodable fault := by
  induction count generalizing last reader with
  | zero => cases failed
  | succ count ih =>
      simp only [readNumbers, bind, Except.bind] at failed
      cases first : readCode parameter reader with
      | error reason =>
          rw [first] at failed
          cases failed
          exact fault_of_readCode known first
      | ok result =>
          obtain ⟨gap, others⟩ := result
          rw [first] at failed
          dsimp only at failed
          split at failed
          · cases rest : readNumbers parameter count (UInt32.ofNat (last.toNat + gap)) others with
            | error reason =>
                rw [rest] at failed
                cases failed
                exact ih rest
            | ok result =>
                rw [rest] at failed
                cases failed
          · cases failed
            exact ⟨_, rfl⟩

end Sequences

/-! ## Coded sequences -/

/-- A coded sequence stands for numbers: its numbers make sense, its bits are the codes of so many
gaps and fewer than eight more, and the numbers are the first one and its sums with the gaps, all of
which fit a word. -/
structure Spells (coded : Rice) (numbers : List UInt32) : Prop where
  parameter : 0 ≤ coded.parameter ∧ coded.parameter ≤ 32
  count : 0 ≤ coded.count
  first : 0 ≤ coded.first ∧ coded.first < 2 ^ 32
  codes : ∃ (gaps : List Nat) (filling : List Bool), (gaps.length : Int) = coded.count ∧
    filling.length < 8 ∧
    unpack coded.data = gaps.flatMap (code coded.parameter.toNat) ++ filling ∧
    (∀ sum ∈ gaps.scanl (· + ·) coded.first.toNat, sum < 2 ^ 32) ∧
    numbers = (gaps.scanl (· + ·) coded.first.toNat).map UInt32.ofNat

variable {coded : Rice} {numbers : List UInt32}

/-- Once its numbers make sense, a sequence is refused if its data are too short, and its codes are
read otherwise. -/
theorem decode_eq (parameter : 0 ≤ coded.parameter ∧ coded.parameter ≤ 32) (count : 0 ≤ coded.count)
    (first : 0 ≤ coded.first ∧ coded.first < 2 ^ 32) :
    coded.decode =
      if 8 * coded.data.length < coded.count.toNat * (coded.parameter.toNat + 1) then
        .error (.undecodable .tooShort)
      else (do
        let (numbers, left) ← readNumbers coded.parameter.toNat coded.count.toNat
          (UInt32.ofNat coded.first.toNat) (Reader.ofBytes coded.data)
        if left.remaining < 8 then return UInt32.ofNat coded.first.toNat :: numbers
        else throw (.undecodable .bytesLeftOver)) := by
  have most : (maxParameter : Int) = 32 := rfl
  have size : (UInt32.size : Int) = 2 ^ 32 := rfl
  rw [decode, if_neg (by omega), if_neg (by omega), if_neg (by omega)]

/-- A sequence that is decoded has numbers that make sense. -/
theorem bounds_of_decode (decoded : coded.decode = .ok numbers) :
    (0 ≤ coded.parameter ∧ coded.parameter ≤ 32) ∧ 0 ≤ coded.count ∧
      0 ≤ coded.first ∧ coded.first < 2 ^ 32 := by
  have most : (maxParameter : Int) = 32 := rfl
  have size : (UInt32.size : Int) = 2 ^ 32 := rfl
  rw [decode] at decoded
  split at decoded
  · cases decoded
  split at decoded
  · cases decoded
  split at decoded
  · cases decoded
  omega

/-- Sequences that are decoded stand for what they are decoded to. -/
theorem spells_of_decode (short : coded.data.length < 2 ^ 29)
    (decoded : coded.decode = .ok numbers) : coded.Spells numbers := by
  obtain ⟨parameter, count, first⟩ := bounds_of_decode decoded
  have known : coded.parameter.toNat ≤ maxParameter := Int.toNat_le.mpr parameter.2
  have start : (UInt32.ofNat coded.first.toNat).toNat = coded.first.toNat :=
    UInt32.toNat_ofNat_of_lt' (by rw [UInt32.size]; omega)
  have shortBits : (Reader.ofBytes coded.data).remaining ≤ 2 ^ 32 := by
    rw [Reader.remaining_eq, Reader.rest_ofBytes, length_unpack]
    omega
  rw [decode_eq parameter count first] at decoded
  split at decoded
  · cases decoded
  simp only [bind, Except.bind] at decoded
  cases read : readNumbers coded.parameter.toNat coded.count.toNat
      (UInt32.ofNat coded.first.toNat) (Reader.ofBytes coded.data) with
  | error failure =>
      rw [read] at decoded
      cases decoded
  | ok result =>
      obtain ⟨others, left⟩ := result
      rw [read] at decoded
      dsimp only at decoded
      split at decoded
      · rename_i few
        cases decoded
        obtain ⟨gaps, length, takes, sums⟩ := (readNumbers_eq_ok_iff known shortBits).mp read
        rw [start, map_toNat_eq_iff] at sums
        rw [Reader.remaining_eq] at few
        exact ⟨parameter, count, first, gaps, left.rest, by omega, few, takes.rest_eq, sums⟩
      · cases decoded

/-- A sequence is decoded to what it stands for. -/
theorem Spells.decode (spells : coded.Spells numbers) (short : coded.data.length < 2 ^ 29) :
    coded.decode = .ok numbers := by
  obtain ⟨parameter, count, first, gaps, filling, length, few, areCodes, sums⟩ := spells
  have known : coded.parameter.toNat ≤ maxParameter := Int.toNat_le.mpr parameter.2
  have shortBits : (Reader.ofBytes coded.data).remaining ≤ 2 ^ 32 := by
    rw [Reader.remaining_eq, Reader.rest_ofBytes, length_unpack]
    omega
  have sums : numbers.map UInt32.toNat = gaps.scanl (· + ·) coded.first.toNat :=
    map_toNat_eq_iff.mpr sums
  obtain ⟨number, others, rfl, isFirst⟩ := exists_cons_of_sums sums
  have isNumber : UInt32.ofNat coded.first.toNat = number := by
    rw [← isFirst, UInt32.ofNat_toNat]
  obtain ⟨after, takes, left⟩ := Reader.exists_takes ((Reader.rest_ofBytes _).trans areCodes)
  have read : readNumbers coded.parameter.toNat coded.count.toNat number
      (Reader.ofBytes coded.data) = .ok (others, after) :=
    (readNumbers_eq_ok_iff known shortBits).mpr ⟨gaps, by omega, takes, by rw [isFirst, sums]⟩
  -- The check before anything is read cannot fail: every code has its remainder and a zero.
  have enough := length_flatMap_code coded.parameter.toNat gaps
  have long : ¬ 8 * coded.data.length < coded.count.toNat * (coded.parameter.toNat + 1) := by
    have total := congrArg List.length areCodes
    rw [length_unpack, List.length_append] at total
    have isCount : gaps.length = coded.count.toNat := by omega
    rw [isCount] at enough
    omega
  rw [decode_eq parameter count first, if_neg long, isNumber]
  simp only [read, bind, Except.bind, Reader.remaining_eq, left, if_pos few]
  rfl

/-- A sequence that is not decoded is refused with a fault of the format. -/
theorem fault_of_decode {failure : Failure} (failed : coded.decode = .error failure) :
    ∃ fault, failure = .undecodable fault := by
  rw [Rice.decode] at failed
  split at failed
  · cases failed
    exact ⟨_, rfl⟩
  rename_i inRange
  split at failed
  · cases failed
    exact ⟨_, rfl⟩
  split at failed
  · cases failed
    exact ⟨_, rfl⟩
  dsimp only at failed
  split at failed
  · cases failed
    exact ⟨_, rfl⟩
  have known : coded.parameter.toNat ≤ maxParameter := by omega
  simp only [bind, Except.bind] at failed
  cases read : readNumbers coded.parameter.toNat coded.count.toNat
      (UInt32.ofNat coded.first.toNat) (Reader.ofBytes coded.data) with
  | error reason =>
      rw [read] at failed
      cases failed
      exact fault_of_readNumbers known read
  | ok result =>
      rw [read] at failed
      dsimp only at failed
      split at failed
      · cases failed
      · cases failed
        exact ⟨_, rfl⟩

/-! ## Encoding again -/

/-- Sums of gaps ascend, and the gaps are those between them. -/
theorem gaps_of_sums {deltas : List Nat} {first : Nat}
    (sums : numbers.map UInt32.toNat = deltas.scanl (· + ·) first) :
    gaps numbers = deltas ∧ isAscending numbers = true ∧ numbers.length = deltas.length + 1 := by
  induction deltas generalizing first numbers with
  | nil =>
      rw [List.scanl_nil, List.map_eq_singleton_iff] at sums
      obtain ⟨number, rfl, -⟩ := sums
      exact ⟨rfl, rfl, rfl⟩
  | cons delta deltas ih =>
      rw [List.scanl_cons, List.map_eq_cons_iff] at sums
      obtain ⟨number, others, rfl, isFirst, sums⟩ := sums
      obtain ⟨areGaps, ascending, length⟩ := ih sums
      obtain ⟨second, rest, rfl, isSecond⟩ := exists_cons_of_sums sums
      refine ⟨?_, ?_, ?_⟩
      · have split : gaps (number :: second :: rest) =
            (second.toNat - number.toNat) :: gaps (second :: rest) := rfl
        rw [split, areGaps, isSecond, isFirst, Nat.add_sub_cancel_left]
      · have ordered : number ≤ second := UInt32.le_iff_toNat_le.mpr (by omega)
        rw [isAscending, ascending, decide_eq_true ordered, Bool.and_self]
      · rw [List.length_cons, length, List.length_cons]

/-- What an ascending sequence is encoded to, a single number included. -/
theorem encodeWith_eq {parameter : Int} (lower : 0 ≤ parameter) (upper : parameter ≤ maxParameter)
    {first : UInt32} {rest : List UInt32} (ascending : isAscending (first :: rest) = true)
    (short : rest.length ≤ maxCount) :
    ∃ again, encodeWith (first :: rest) parameter = .ok again ∧ again.first = first.toNat ∧
      again.count = rest.length ∧
      again.data = pack ((gaps (first :: rest)).flatMap (code parameter.toNat)) := by
  have valid : ¬ (parameter < 0 ∨ (maxParameter : Int) < parameter ∨
      isAscending (first :: rest) = false) := by
    rw [ascending, not_or, not_or]
    exact ⟨Int.not_lt.mpr lower, Int.not_lt.mpr upper, Bool.noConfusion⟩
  rw [encodeWith_cons, if_neg valid, if_neg (Nat.not_lt.mpr short)]
  cases rest with
  | nil =>
      have noGaps : gaps [first] = [] := rfl
      rw [noGaps, List.flatMap_nil]
      exact ⟨_, rfl, rfl, rfl, rfl⟩
  | cons second rest => exact ⟨_, rfl, rfl, rfl, rfl⟩

/-- What a sequence stands for is encoded to the same bits again, up to those after the codes. -/
theorem Spells.encode_again (spells : coded.Spells numbers) (few : coded.count ≤ maxCount) :
    ∃ again bits filling, encodeWith numbers coded.parameter = .ok again ∧
      again.first = coded.first ∧ again.count = coded.count ∧
      again.data.length = coded.data.length ∧ filling.length < 8 ∧
      unpack coded.data = bits ++ filling ∧
      unpack again.data = bits ++ List.replicate filling.length false := by
  obtain ⟨parameter, count, first, deltas, filling, length, small, areCodes, sums⟩ := spells
  have sums : numbers.map UInt32.toNat = deltas.scanl (· + ·) coded.first.toNat :=
    map_toNat_eq_iff.mpr sums
  obtain ⟨areGaps, ascending, lengthNumbers⟩ := gaps_of_sums sums
  obtain ⟨number, rest, rfl, isFirst⟩ := exists_cons_of_sums sums
  rw [List.length_cons, Nat.add_right_cancel_iff] at lengthNumbers
  obtain ⟨again, encoded, firstAgain, countAgain, dataAgain⟩ :=
    encodeWith_eq parameter.1 parameter.2 ascending (by omega : rest.length ≤ maxCount)
  rw [areGaps] at dataAgain
  set bits := deltas.flatMap (code coded.parameter.toNat) with areBits
  have total := congrArg List.length areCodes
  rw [length_unpack, List.length_append] at total
  have bytes : byteCount bits.length = coded.data.length := by
    rw [byteCount]
    omega
  refine ⟨again, bits, filling, encoded, by omega, by omega, ?_, small, areCodes, ?_⟩
  · rw [dataAgain, length_pack, bytes]
  · rw [dataAgain, pack, unpack_packInto (by rw [bytes]; omega), bytes]
    congr 2
    omega

/-- The decoder accepts exactly its format, and refuses everything else with a fault of the format.
What it accepts is encoded again to the same bits, up to those after the last code, if it names no
more gaps than an encoder does. -/
theorem decode_eq_ok_iff_spells (coded : Rice) (short : coded.data.length < 2 ^ 29) :
    (∀ numbers, coded.decode = .ok numbers ↔ coded.Spells numbers) ∧
      ((∀ numbers, ¬ coded.Spells numbers) →
        ∃ fault, coded.decode = .error (.undecodable fault)) ∧
      ∀ numbers, coded.decode = .ok numbers → coded.count < 2 ^ 31 →
        ∃ again bits filling, encodeWith numbers coded.parameter = .ok again ∧
          again.first = coded.first ∧ again.count = coded.count ∧
          again.data.length = coded.data.length ∧ filling.length < 8 ∧
          unpack coded.data = bits ++ filling ∧
          unpack again.data = bits ++ List.replicate filling.length false := by
  refine ⟨fun numbers => ⟨spells_of_decode short, fun spells => spells.decode short⟩, ?_, ?_⟩
  · intro spellsNothing
    cases decoded : coded.decode with
    | error failure =>
        obtain ⟨fault, rfl⟩ := fault_of_decode decoded
        exact ⟨fault, rfl⟩
    | ok numbers => exact absurd (spells_of_decode short decoded) (spellsNothing numbers)
  · intro numbers decoded few
    exact (spells_of_decode short decoded).encode_again (Int.le_of_lt_add_one few)

/-- Two gaps and a set bit after their codes, and the same data with a byte too many. -/
theorem decode_with_filling :
    ([133] : List UInt8).length < 2 ^ 29 ∧ Rice.decode ⟨1, 2, 2, [133]⟩ = .ok [1, 6, 6] ∧
      Spells ⟨1, 2, 2, [133]⟩ [1, 6, 6] ∧
      (∃ again bits filling, encodeWith [1, 6, 6] 2 = .ok again ∧ again.first = 1 ∧
        again.count = 2 ∧ again.data.length = 1 ∧ filling.length < 8 ∧
        unpack [133] = bits ++ filling ∧
        unpack again.data = bits ++ List.replicate filling.length false) ∧
      ¬ Spells ⟨1, 2, 2, [133, 0]⟩ [1, 6, 6] := by
  have short : ([133] : List UInt8).length < 2 ^ 29 := by decide
  have decoded : Rice.decode ⟨1, 2, 2, [133]⟩ = .ok [1, 6, 6] := by decide +kernel
  obtain ⟨accepts, -, again⟩ := decode_eq_ok_iff_spells ⟨1, 2, 2, [133]⟩ short
  refine ⟨short, decoded, (accepts _).mp decoded, again _ decoded (by decide), ?_⟩
  rw [← (decode_eq_ok_iff_spells ⟨1, 2, 2, [133, 0]⟩ (by decide)).1]
  decide +kernel

end Rice

end PrivateRetrieval
