/-
# Rice codes read back

What the encoder writes are the codes of the gaps, one after the other. A gap's code can be read
wherever a reader stands, so a sequence of codes is read gap by gap, and the numbers come back as
the sums of the gaps. Whatever the encoder returns, the decoder turns back into the sequence; and
the encoder returns a code for every ascending sequence that is not too long, and refuses every
sequence that does not ascend.
-/

import PrivateRetrieval.Proofs.Codes.Streams
import PrivateRetrieval.Bits.Rice

namespace PrivateRetrieval.Rice

open Bits

/-- The code of one gap. -/
def code (parameter gap : Nat) : List Bool :=
  List.replicate (gap >>> parameter) true ++ false :: Bits.digits parameter gap

/-- A code is the quotient in unary and the digits of the remainder. -/
theorem code_eq (parameter gap : Nat) :
    code parameter gap = unary (gap >>> parameter) ++ digits parameter gap := by
  rw [code, unary, List.append_assoc, List.singleton_append]

/-- The code of a gap reads back as the gap, whatever comes after it. -/
theorem readCode_code {gap : Nat} (small : gap < UInt32.size) {parameter : Nat}
    (known : parameter ≤ maxParameter) {reader after : Reader}
    (takes : reader.Takes (code parameter gap) after) :
    readCode parameter reader = .ok (gap, after) := by
  have sum : (gap >>> parameter) <<< parameter + gap % 2 ^ parameter = gap := by
    rw [Nat.shiftRight_eq_div_pow, Nat.shiftLeft_eq, Nat.mul_comm]
    exact Nat.div_add_mod gap (2 ^ parameter)
  have short : (gap >>> parameter) <<< parameter < UInt64.size := by
    have word : UInt32.size < UInt64.size := by decide
    omega
  rw [code_eq] at takes
  obtain ⟨between, quotient, remainder⟩ := takes.split
  have readQuotient := quotient.readUnary
  have readRemainder := remainder.read ((length_digits parameter gap).trans_le known)
  rw [length_digits, value_digits] at readRemainder
  simp only [readCode, readQuotient, readRemainder, Nat.mod_eq_of_lt short, sum]
  rw [if_pos small]

/-- A gap is written as its code. -/
theorem exists_writeCode {parameter : Nat} (known : parameter ≤ maxParameter) (writer : Writer)
    (gap : Nat) :
    ∃ after, writeCode parameter writer gap = .ok after ∧
      after.bits = writer.bits ++ code parameter gap := by
  obtain ⟨after, written, bits⟩ :=
    (writer.writeUnary (gap >>> parameter)).exists_write (gap &&& (1 <<< parameter - 1)) known
  refine ⟨after, written, ?_⟩
  rw [bits, Writer.bits_writeUnary, Nat.one_shiftLeft, Nat.and_two_pow_sub_one_eq_mod, digits_mod,
    code_eq, List.append_assoc]

/-- A sequence that is encoded becomes its first number and the codes of its gaps in bytes. -/
theorem encodeWith_cons (first : UInt32) (rest : List UInt32) (parameter : Int) :
    encodeWith (first :: rest) parameter =
      if parameter < 0 ∨ (maxParameter : Int) < parameter ∨
          isAscending (first :: rest) = false then
        .error .invalidConfiguration
      else if maxCount < rest.length then .error .arithmetic
      else if rest = [] then .ok ⟨first.toNat, 0, 0, []⟩
      else
        .ok ⟨first.toNat, parameter, rest.length,
          pack ((gaps (first :: rest)).flatMap (code parameter.toNat))⟩ := by
  rw [encodeWith]
  split
  · rfl
  rename_i valid
  rw [not_or, not_or] at valid
  have known : parameter.toNat ≤ maxParameter := Int.toNat_le.mpr (Int.not_lt.mp valid.2.1)
  obtain ⟨writer, written, bits⟩ := Writer.exists_foldlM
    (fun gap (_ : gap ∈ gaps (first :: rest)) writer => exists_writeCode known writer gap)
    Writer.empty
  rw [Writer.bits_empty, List.nil_append] at bits
  rw [written, ← bits, ← writer.toBytes_eq_pack]
  rfl

theorem length_code (parameter gap : Nat) : parameter + 1 ≤ (code parameter gap).length := by
  rw [code, List.length_append, List.length_cons, length_digits]
  omega

theorem isAscending_cons_cons {first second : UInt32} {rest : List UInt32}
    (ascending : isAscending (first :: second :: rest) = true) :
    first ≤ second ∧ isAscending (second :: rest) = true := by
  rw [isAscending, Bool.and_eq_true, decide_eq_true_eq] at ascending
  exact ascending

/-- A sequence is ascending if no number is greater than a later one. -/
theorem isAscending_iff_pairwise {numbers : List UInt32} :
    isAscending numbers = true ↔ numbers.Pairwise (· ≤ ·) := by
  rw [← List.isChain_iff_pairwise]
  induction numbers with
  | nil => simp [isAscending]
  | cons first rest ih =>
      cases rest with
      | nil => simp [isAscending]
      | cons second rest =>
          rw [isAscending, Bool.and_eq_true, decide_eq_true_eq, ih, List.isChain_cons_cons]

/-- The codes of the gaps of a sequence lead from its first number to the others. -/
theorem readNumbers_gaps {first : UInt32} {rest : List UInt32} {parameter : Nat}
    (known : parameter ≤ maxParameter) (ascending : isAscending (first :: rest) = true)
    {reader after : Reader}
    (takes : reader.Takes ((gaps (first :: rest)).flatMap (code parameter)) after) :
    readNumbers parameter rest.length first reader = .ok (rest, after) := by
  induction rest generalizing first reader with
  | nil =>
      cases takes
      rfl
  | cons second rest ih =>
      obtain ⟨ordered, ascendingRest⟩ := isAscending_cons_cons ascending
      have ordered : first.toNat ≤ second.toNat := ordered
      have bounded : second.toNat < UInt32.size := second.toNat_lt
      have firstGap : gaps (first :: second :: rest) =
          (second.toNat - first.toNat) :: gaps (second :: rest) := rfl
      have sum : first.toNat + (second.toNat - first.toNat) = second.toNat := by omega
      rw [firstGap, List.flatMap_cons] at takes
      obtain ⟨between, takesFirst, takesRest⟩ := takes.split
      rw [List.length_cons, readNumbers, readCode_code (by omega) known takesFirst]
      simp only [bind, Except.bind]
      rw [if_pos (by omega), sum, UInt32.ofNat_toNat, ih ascendingRest takesRest]
      rfl

theorem length_gaps (numbers : List UInt32) : (gaps numbers).length = numbers.length - 1 := by
  rw [gaps, List.length_zipWith, List.length_tail]
  omega

theorem length_flatMap_code (parameter : Nat) (gaps : List Nat) :
    gaps.length * (parameter + 1) ≤ (gaps.flatMap (code parameter)).length := by
  induction gaps with
  | nil => exact Nat.le_of_eq (Nat.zero_mul _)
  | cons gap gaps ih =>
      have one := length_code parameter gap
      rw [List.flatMap_cons, List.length_append, List.length_cons, Nat.succ_mul]
      omega

/-- The first number of an ascending sequence and the codes of its gaps decode to the sequence. -/
theorem decode_gaps {first : UInt32} {rest : List UInt32}
    (ascending : isAscending (first :: rest) = true) {parameter : Int} (lower : 0 ≤ parameter)
    (upper : parameter ≤ maxParameter) :
    decode ⟨first.toNat, parameter, rest.length,
      pack ((gaps (first :: rest)).flatMap (code parameter.toNat))⟩ = .ok (first :: rest) := by
  have firstBound : first.toNat < UInt32.size := first.toNat_lt
  have count : ((rest.length : Int)).toNat = rest.length := Int.toNat_natCast _
  have start : UInt32.ofNat ((first.toNat : Int)).toNat = first := by
    rw [Int.toNat_natCast, UInt32.ofNat_toNat]
  obtain ⟨filling, short, unpacked⟩ :=
    unpack_pack ((gaps (first :: rest)).flatMap (code parameter.toNat))
  obtain ⟨after, takes, left⟩ := Reader.exists_takes ((Reader.rest_ofBytes _).trans unpacked)
  have enough := length_flatMap_code parameter.toNat (gaps (first :: rest))
  rw [length_gaps, List.length_cons, Nat.add_sub_cancel] at enough
  have long : rest.length * (parameter.toNat + 1) ≤
      8 * byteCount ((gaps (first :: rest)).flatMap (code parameter.toNat)).length := by
    rw [byteCount]
    omega
  rw [decode, if_neg (by simp only; omega), if_neg (by simp only; omega),
    if_neg (by simp only; omega)]
  simp only [count, start, length_pack]
  rw [if_neg (by omega), readNumbers_gaps (Int.toNat_le.mpr upper) ascending takes]
  simp only [bind, Except.bind]
  rw [if_pos (by rwa [Reader.remaining_eq, left])]
  rfl

/-- What the encoder returns for a parameter decodes to the sequence. -/
theorem decode_of_encodeWith {numbers : List UInt32} {parameter : Int} {coded : Rice}
    (encoded : encodeWith numbers parameter = .ok coded) : coded.decode = .ok numbers := by
  cases numbers with
  | nil => cases encoded
  | cons first rest =>
      rw [encodeWith_cons] at encoded
      split at encoded
      · cases encoded
      rename_i valid
      rw [not_or, not_or, Bool.not_eq_false] at valid
      obtain ⟨lower, upper, ascending⟩ := valid
      split at encoded
      · cases encoded
      split at encoded
      · rename_i alone
        cases encoded
        subst alone
        have decoded := decode_gaps ascending (Int.le_refl 0) (by decide)
        have noGaps : gaps [first] = [] := rfl
        rw [noGaps, List.flatMap_nil] at decoded
        exact decoded
      · cases encoded
        exact decode_gaps ascending (Int.not_lt.mp lower) (Int.not_lt.mp upper)

/-- What the encoder returns decodes to the sequence. -/
theorem decode_of_encode {numbers : List UInt32} {coded : Rice}
    (encoded : encode numbers = .ok (some coded)) : coded.decode = .ok numbers := by
  rw [encode] at encoded
  split at encoded
  · rename_i first last _ _
    cases result : encodeWith numbers
        (parameterFor (last.toNat - first.toNat) numbers.length) with
    | error failure =>
        rw [result] at encoded
        cases encoded
    | ok coded =>
        rw [result] at encoded
        cases encoded
        exact decode_of_encodeWith result
  · cases encoded

/-- A sequence that has a first number is encoded with the parameter chosen for it. -/
theorem encode_cons (first : UInt32) (rest : List UInt32) :
    encode (first :: rest) =
      (encodeWith (first :: rest)
        (parameterFor ((rest.getLast?.getD first).toNat - first.toNat) (first :: rest).length)).map
        some := by
  rw [encode, List.getLast?_cons, List.head?_cons]

/-- Only the empty sequence has no code. -/
theorem eq_nil_of_encode_eq_none {numbers : List UInt32} (encoded : encode numbers = .ok none) :
    numbers = [] := by
  cases numbers with
  | nil => rfl
  | cons first rest =>
      rw [encode_cons] at encoded
      cases result : encodeWith (first :: rest)
          (parameterFor ((rest.getLast?.getD first).toNat - first.toNat) (first :: rest).length) <;>
        rw [result] at encoded <;> cases encoded

/-- The chosen parameter is one that the format knows. -/
theorem parameterFor_le {range : Nat} (small : range < 2 ^ 32) (length : Nat) :
    parameterFor range length ≤ maxParameter := by
  rw [parameterFor, maxParameter]
  split
  · decide
  · by_cases none : range / length = 0
    · rw [none]
      decide
    · have fewer : range / length ≤ range := Nat.div_le_self _ _
      exact Nat.le_of_lt ((Nat.log2_lt none).mpr (by omega))

/-- Ascending sequences that have a number and are not too long are encoded with every parameter
that the format knows. -/
theorem exists_encodeWith {first : UInt32} {rest : List UInt32}
    (ascending : isAscending (first :: rest) = true) (short : rest.length ≤ maxCount)
    {parameter : Int} (lower : 0 ≤ parameter) (upper : parameter ≤ maxParameter) :
    ∃ coded, encodeWith (first :: rest) parameter = .ok coded ∧ 0 ≤ coded.parameter ∧
      coded.parameter ≤ maxParameter := by
  rw [encodeWith_cons, if_neg, if_neg (Nat.not_lt.mpr short)]
  · split
    · exact ⟨_, rfl, Int.le_refl 0, Int.natCast_nonneg maxParameter⟩
    · exact ⟨_, rfl, lower, upper⟩
  · rw [not_or, not_or, Bool.not_eq_false]
    exact ⟨Int.not_lt.mpr lower, Int.not_lt.mpr upper, ascending⟩

/-- Ascending sequences that have a number and are not too long are encoded with a parameter that
the format knows. -/
theorem exists_encode_cons {first : UInt32} {rest : List UInt32}
    (ascending : isAscending (first :: rest) = true) (short : rest.length ≤ maxCount) :
    ∃ coded, encode (first :: rest) = .ok (some coded) ∧ 0 ≤ coded.parameter ∧
      coded.parameter ≤ maxParameter := by
  set range := (rest.getLast?.getD first).toNat - first.toNat with isRange
  have lastBound := (rest.getLast?.getD first).toNat_lt
  have small : range < 2 ^ 32 := by omega
  have chosen := parameterFor_le small (first :: rest).length
  obtain ⟨coded, encoded, lower, upper⟩ := exists_encodeWith ascending short
    (Int.natCast_nonneg (parameterFor range (first :: rest).length)) (Int.ofNat_le.mpr chosen)
  exact ⟨coded, by rw [encode_cons, ← isRange, encoded]; rfl, lower, upper⟩

/-- Ascending sequences that are not too long are encoded. -/
theorem encode_of_isAscending {numbers : List UInt32} (ascending : isAscending numbers = true)
    (short : numbers.length ≤ maxCount + 1) : ∃ coded, encode numbers = .ok coded := by
  cases numbers with
  | nil => exact ⟨none, rfl⟩
  | cons first rest =>
      obtain ⟨coded, encoded, -⟩ := exists_encode_cons ascending (Nat.le_of_succ_le_succ short)
      exact ⟨some coded, encoded⟩

/-- A sequence that is not ascending is refused, whatever the parameter. -/
theorem encodeWith_of_not_ascending {numbers : List UInt32}
    (descends : isAscending numbers = false) (parameter : Int) :
    encodeWith numbers parameter = .error .invalidConfiguration := by
  cases numbers with
  | nil => rfl
  | cons first rest => rw [encodeWith_cons, if_pos (Or.inr (Or.inr descends))]

theorem encode_of_not_ascending {numbers : List UInt32} (descends : isAscending numbers = false) :
    encode numbers = .error .invalidConfiguration := by
  cases numbers with
  | nil => cases descends
  | cons first rest =>
      rw [encode_cons, encodeWith_of_not_ascending descends]
      rfl

/-- Every ascending sequence of at most `2 ^ 31` numbers is encoded, the empty one as nothing, and
decodes to itself, with whichever parameter it was encoded. A sequence that is not ascending is
refused. -/
theorem encode_decode_ascending (numbers : List UInt32) :
    (numbers.Pairwise (· ≤ ·) → numbers.length ≤ 2 ^ 31 →
      (numbers ≠ [] → ∀ parameter : Int, 0 ≤ parameter → parameter ≤ 32 →
        ∃ coded, encodeWith numbers parameter = .ok coded ∧ coded.decode = .ok numbers) ∧
      (encode numbers = .ok none ↔ numbers = []) ∧
      (numbers ≠ [] → ∃ coded, encode numbers = .ok (some coded) ∧ 0 ≤ coded.parameter ∧
        coded.parameter ≤ 32 ∧ coded.decode = .ok numbers)) ∧
    (¬ numbers.Pairwise (· ≤ ·) →
      (∀ parameter, encodeWith numbers parameter = .error .invalidConfiguration) ∧
      encode numbers = .error .invalidConfiguration) := by
  rw [← isAscending_iff_pairwise]
  refine ⟨fun ascending short => ⟨?_, ⟨eq_nil_of_encode_eq_none, ?_⟩, ?_⟩, fun descends => ?_⟩
  · intro filled parameter lower upper
    obtain ⟨first, rest, rfl⟩ := List.exists_cons_of_ne_nil filled
    obtain ⟨coded, encoded, -⟩ :=
      exists_encodeWith ascending (Nat.le_of_succ_le_succ short) lower upper
    exact ⟨coded, encoded, decode_of_encodeWith encoded⟩
  · rintro rfl
    rfl
  · intro filled
    obtain ⟨first, rest, rfl⟩ := List.exists_cons_of_ne_nil filled
    obtain ⟨coded, encoded, lower, upper⟩ :=
      exists_encode_cons ascending (Nat.le_of_succ_le_succ short)
    exact ⟨coded, encoded, lower, upper, decode_of_encode encoded⟩
  · rw [Bool.not_eq_true] at descends
    exact ⟨encodeWith_of_not_ascending descends, encode_of_not_ascending descends⟩

/-- A sequence with two equal numbers and the largest gap that there is, and one that descends. -/
theorem encode_decode_extremes :
    [0, 0, 4294967295].Pairwise (· ≤ · : UInt32 → UInt32 → Prop) ∧
      (∃ coded, encodeWith [0, 0, 4294967295] 32 = .ok coded ∧
        coded.decode = .ok [0, 0, 4294967295]) ∧
      (∃ coded, encode [0, 0, 4294967295] = .ok (some coded) ∧ coded.parameter ≤ 32 ∧
        coded.decode = .ok [0, 0, 4294967295]) ∧
      ¬ [2, 1].Pairwise (· ≤ · : UInt32 → UInt32 → Prop) ∧
      encode [2, 1] = .error .invalidConfiguration := by
  have ascending : [0, 0, 4294967295].Pairwise (· ≤ · : UInt32 → UInt32 → Prop) := by decide
  have descends : ¬ [2, 1].Pairwise (· ≤ · : UInt32 → UInt32 → Prop) := by decide
  obtain ⟨withParameter, -, chosen⟩ :=
    (encode_decode_ascending [0, 0, 4294967295]).1 ascending (by decide)
  obtain ⟨coded, encoded, -, upper, decoded⟩ := chosen (by decide)
  exact ⟨ascending, withParameter (by decide) 32 (by decide) (by decide),
    ⟨coded, encoded, upper, decoded⟩, descends, ((encode_decode_ascending [2, 1]).2 descends).2⟩

end PrivateRetrieval.Rice
