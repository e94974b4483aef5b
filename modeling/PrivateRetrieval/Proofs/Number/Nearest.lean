/-
# How far rounding goes

Rounding to binary64 moves a value by at most a 2 ^ 53rd part of it, and never past a number that
needs no rounding. The second fact is the monotonicity of rounding where one of the two values is a
binary64 number already. Nothing else is used of rounded bounds.

Both follow from one description of a rounded value: an integer on a grid that is so fine that the
value has at least 2 ^ 52 of its steps.
-/

import Mathlib
import PrivateRetrieval.Number.Binary64

namespace PrivateRetrieval.Binary64

/-- The value of a binary64 number, the range of the exponents set aside. -/
def IsNumber (value : ℚ) : Prop :=
  ∃ (mantissa : ℕ) (exponent : ℤ), mantissa ≤ 2 ^ 53 ∧ value = mantissa * 2 ^ exponent

/-- A natural number of at most 53 bits is a binary64 number. -/
theorem ofNat_of_lt {number : ℕ} (small : number < 2 ^ 53) : ofNat number = number := by
  by_cases zero : number = 0
  · subst zero
    rfl
  · have bits : Nat.log2 number < 53 := (Nat.log2_lt zero).2 small
    have shift : Nat.log2 number + 1 - precision.toNat = 0 := by
      have : precision.toNat = 53 := rfl
      omega
    simp [ofNat, shift, roundedQuotient, Nat.mod_one]

/-! ## Integers on a grid -/

theorem div_le_roundedQuotient (numerator denominator : ℕ) :
    numerator / denominator ≤ roundedQuotient numerator denominator := by
  rw [roundedQuotient]
  split
  · exact le_refl _
  · exact Nat.le_succ _

theorem roundedQuotient_le {numerator denominator steps : ℕ} (positive : 0 < denominator)
    (inside : numerator ≤ steps * denominator) : roundedQuotient numerator denominator ≤ steps := by
  have division := Nat.div_add_mod' numerator denominator
  rw [roundedQuotient]
  split
  · exact Nat.div_le_of_le_mul (by rwa [Nat.mul_comm])
  · -- There is a rest, so the quotient is less than the bound.
    have rest : 0 < numerator % denominator := by omega
    have less : numerator / denominator * denominator < steps * denominator := by omega
    exact Nat.lt_of_mul_lt_mul_right less

/-- The nearest integer is at most one half away. -/
theorem abs_roundedQuotient_sub_le (numerator : ℕ) {denominator : ℕ} (positive : 0 < denominator) :
    |(roundedQuotient numerator denominator : ℚ) - numerator / denominator| ≤ 1 / 2 := by
  have division := Nat.div_add_mod numerator denominator
  have rest := Nat.mod_lt numerator positive
  have bounds : 2 * (denominator * roundedQuotient numerator denominator) ≤
        2 * numerator + denominator ∧
      2 * numerator ≤ 2 * (denominator * roundedQuotient numerator denominator) + denominator := by
    rw [roundedQuotient]
    split
    · omega
    · rw [Nat.mul_add]
      omega
  obtain ⟨upper, lower⟩ := bounds
  have upper : 2 * ((denominator : ℚ) * roundedQuotient numerator denominator) ≤
      2 * numerator + denominator := by exact_mod_cast upper
  have lower : 2 * (numerator : ℚ) ≤
      2 * (denominator * roundedQuotient numerator denominator) + denominator := by
    exact_mod_cast lower
  have positive : (0 : ℚ) < denominator := by exact_mod_cast positive
  have exact : (numerator : ℚ) = denominator * (numerator / denominator) := by
    field_simp
  rw [exact] at upper lower
  rw [abs_le]
  constructor
  · nlinarith
  · nlinarith

theorem scale_eq (exponent : ℤ) :
    0 < (scale exponent).1 ∧ 0 < (scale exponent).2 ∧
      ((scale exponent).1 : ℚ) / (scale exponent).2 = 2 ^ exponent := by
  rw [scale]
  split
  · rename_i nonnegative
    rw [Nat.one_shiftLeft]
    refine ⟨Nat.two_pow_pos _, Nat.zero_lt_one, ?_⟩
    push_cast
    rw [div_one, ← zpow_natCast, Int.toNat_of_nonneg nonnegative]
  · rename_i negative
    rw [Nat.one_shiftLeft]
    refine ⟨Nat.zero_lt_one, Nat.two_pow_pos _, ?_⟩
    push_cast
    rw [← zpow_natCast, Int.toNat_of_nonneg (by omega), one_div, ← zpow_neg, neg_neg]

theorem dyadic_eq (mantissa : ℕ) (exponent : ℤ) :
    dyadic mantissa exponent = mantissa * 2 ^ exponent := by
  obtain ⟨-, -, power⟩ := scale_eq exponent
  rw [dyadic]
  dsimp only
  rw [Rat.mkRat_eq_div, ← power]
  push_cast
  ring

/-- A value has at least 2 ^ 52 steps of the grid on which it is rounded. -/
theorem two_pow_mul_lastPlace_le {numerator denominator : ℕ} (positive : 0 < numerator)
    (positiveToo : 0 < denominator) :
    (2 : ℚ) ^ 52 * 2 ^ lastPlace numerator denominator ≤ numerator / denominator := by
  have bound : (0 : ℚ) < denominator := by exact_mod_cast positiveToo
  set guess : ℤ := (Nat.log2 numerator : ℤ) - Nat.log2 denominator with isGuess
  have isPlace : lastPlace numerator denominator =
      (if denominator * (scale guess).1 ≤ numerator * (scale guess).2 then guess else guess - 1) +
        1 - precision := rfl
  obtain ⟨exponent, isExponent, fits⟩ : ∃ exponent : ℤ,
      lastPlace numerator denominator = exponent + 1 - precision ∧
        (2 : ℚ) ^ exponent ≤ numerator / denominator := by
    obtain ⟨-, positiveDown, power⟩ := scale_eq guess
    by_cases checked : denominator * (scale guess).1 ≤ numerator * (scale guess).2
    · -- The guess is checked by a comparison of integers.
      refine ⟨guess, by rw [isPlace, if_pos checked], ?_⟩
      have checked : (denominator : ℚ) * (scale guess).1 ≤ numerator * (scale guess).2 := by
        exact_mod_cast checked
      have positiveDown : (0 : ℚ) < (scale guess).2 := by exact_mod_cast positiveDown
      rw [← power, div_le_div_iff₀ positiveDown bound]
      linarith
    · -- One less than the guess is always small enough.
      refine ⟨guess - 1, by rw [isPlace, if_neg checked], ?_⟩
      have lower : (2 : ℚ) ^ Nat.log2 numerator ≤ numerator := by
        exact_mod_cast Nat.log2_self_le positive.ne'
      have upper : (denominator : ℚ) ≤ 2 ^ (Nat.log2 denominator + 1) := by
        exact_mod_cast Nat.lt_log2_self.le
      rw [le_div_iff₀ bound]
      calc (2 : ℚ) ^ (guess - 1) * denominator
          ≤ 2 ^ (guess - 1) * 2 ^ (Nat.log2 denominator + 1) :=
            mul_le_mul_of_nonneg_left upper (zpow_nonneg two_pos.le _)
        _ = 2 ^ Nat.log2 numerator := by
            rw [← zpow_natCast, ← zpow_natCast, ← zpow_add₀ two_ne_zero, isGuess]
            congr 1
            push_cast
            ring
        _ ≤ numerator := lower
  rw [isExponent, ← zpow_natCast, ← zpow_add₀ two_ne_zero]
  refine le_of_eq_of_le ?_ fits
  congr 1
  show ((52 : ℕ) : ℤ) + (exponent + 1 - 53) = exponent
  push_cast
  ring

/-- A rounded value is an integer on its grid: no other multiple of a step lies between it and the
value. -/
theorem nearest_spec {value : ℚ} (positive : 0 < value) :
    ∃ (mantissa : ℕ) (place : ℤ), nearest value = mantissa * 2 ^ place ∧
      (2 : ℚ) ^ 52 * 2 ^ place ≤ value ∧ |mantissa * 2 ^ place - value| ≤ 2 ^ place / 2 ∧
      ∀ steps : ℕ, (steps * 2 ^ place ≤ value → steps ≤ mantissa) ∧
        (value ≤ steps * 2 ^ place → mantissa ≤ steps) := by
  have numerator : 0 < value.num := Rat.num_pos.mpr positive
  set up := value.num.natAbs with isUp
  have positiveUp : 0 < up := Int.natAbs_pos.mpr numerator.ne'
  have isValue : (up : ℚ) / value.den = value := by
    have cast : ((up : ℤ) : ℚ) = value.num := by
      rw [isUp, Int.natAbs_of_nonneg numerator.le]
    rw [← Int.cast_natCast, cast, Rat.num_div_den]
  set place := lastPlace up value.den with isPlace
  obtain ⟨positiveOut, positiveIn, power⟩ := scale_eq place
  set out := (scale place).1
  set into := (scale place).2
  have positiveDen : 0 < value.den * out := Nat.mul_pos value.den_pos positiveOut
  have step : (0 : ℚ) < 2 ^ place := zpow_pos two_pos _
  have ratio : ((up * into : ℕ) : ℚ) / (value.den * out : ℕ) = value / 2 ^ place := by
    have outNe : (out : ℚ) ≠ 0 := by exact_mod_cast positiveOut.ne'
    have intoNe : (into : ℚ) ≠ 0 := by exact_mod_cast positiveIn.ne'
    have denNe : (value.den : ℚ) ≠ 0 := by exact_mod_cast value.den_pos.ne'
    rw [← power]
    nth_rewrite 2 [← isValue]
    push_cast
    field_simp
  refine ⟨roundedQuotient (up * into) (value.den * out), place, ?_, ?_, ?_, ?_⟩
  · rw [nearest, if_neg numerator.not_gt, nearestQuotient,
      if_neg (not_or.mpr ⟨positiveUp.ne', value.den_pos.ne'⟩)]
    exact dyadic_eq _ _
  · exact (two_pow_mul_lastPlace_le positiveUp value.den_pos).trans_eq isValue
  · have error := abs_roundedQuotient_sub_le (up * into) positiveDen
    rw [ratio] at error
    have scaled := mul_le_mul_of_nonneg_right error step.le
    rw [← abs_of_pos step, ← abs_mul, sub_mul, abs_of_pos step,
      div_mul_cancel₀ _ step.ne'] at scaled
    linarith
  · intro steps
    have positiveToo : (0 : ℚ) < (value.den * out : ℕ) := by exact_mod_cast positiveDen
    rw [← le_div_iff₀ step, ← div_le_iff₀ step, ← ratio, le_div_iff₀ positiveToo,
      div_le_iff₀ positiveToo]
    constructor
    · intro inside
      refine le_trans ?_ (div_le_roundedQuotient _ _)
      rw [Nat.le_div_iff_mul_le positiveDen]
      exact_mod_cast inside
    · intro inside
      exact roundedQuotient_le positiveDen (by exact_mod_cast inside)

theorem nearest_zero : nearest 0 = 0 := rfl

/-- Rounding up goes no further than a 2 ^ 53rd part of the value. -/
theorem nearest_le {value : ℚ} (nonnegative : 0 ≤ value) :
    nearest value ≤ value * (1 + 1 / 2 ^ 53) := by
  rcases nonnegative.eq_or_lt with rfl | positive
  · rw [nearest_zero, zero_mul]
  · obtain ⟨mantissa, place, isNearest, fine, error, -⟩ := nearest_spec positive
    rw [isNearest]
    have upper := (abs_le.mp error).2
    have half : (2 : ℚ) ^ place / 2 ≤ value / 2 ^ 53 := by
      rw [div_le_div_iff₀ two_pos (by positivity)]
      linarith
    linarith

/-- A number of larger steps is one of smaller steps. -/
theorem mul_two_zpow_add (mantissa : ℕ) (place : ℤ) (more : ℕ) :
    (mantissa : ℚ) * 2 ^ (place + (more : ℤ)) = ((mantissa * 2 ^ more : ℕ) : ℚ) * 2 ^ place := by
  rw [zpow_add₀ two_ne_zero, zpow_natCast]
  push_cast
  ring

/-- A binary64 number of smaller steps has at most 2 ^ 52 of the larger ones. -/
theorem mul_two_zpow_le {mantissa : ℕ} {exponent place : ℤ} (bounded : mantissa ≤ 2 ^ 53)
    (finer : exponent < place) : (mantissa : ℚ) * 2 ^ exponent ≤ 2 ^ 52 * 2 ^ place := by
  have bounded : (mantissa : ℚ) ≤ 2 ^ 53 := by exact_mod_cast bounded
  have power : (2 : ℚ) ^ exponent ≤ 2 ^ (place - 1) :=
    zpow_le_zpow_right₀ one_le_two (by omega)
  calc (mantissa : ℚ) * 2 ^ exponent ≤ 2 ^ 53 * 2 ^ (place - 1) := by gcongr
    _ = 2 ^ 52 * 2 ^ place := by
        rw [zpow_sub₀ two_ne_zero, zpow_one]
        ring

/-- Rounding down does not go past a binary64 number. -/
theorem le_nearest {number value : ℚ} (isNumber : IsNumber number) (below : number ≤ value) :
    number ≤ nearest value := by
  obtain ⟨mantissa, exponent, bounded, rfl⟩ := isNumber
  have nonnegative : (0 : ℚ) ≤ mantissa * 2 ^ exponent :=
    mul_nonneg (Nat.cast_nonneg _) (zpow_nonneg two_pos.le _)
  rcases (nonnegative.trans below).eq_or_lt with rfl | positive
  · rwa [nearest_zero]
  obtain ⟨rounded, place, isNearest, fine, -, nothingBetween⟩ := nearest_spec positive
  have step : (0 : ℚ) < 2 ^ place := zpow_pos two_pos _
  rw [isNearest]
  rcases le_or_gt place exponent with coarser | finer
  · -- The number is on the grid.
    obtain ⟨more, rfl⟩ := Int.le.dest coarser
    rw [mul_two_zpow_add] at below ⊢
    exact mul_le_mul_of_nonneg_right (by exact_mod_cast (nothingBetween _).1 below) step.le
  · -- The number has at most 2 ^ 52 steps of the grid.
    have least : 2 ^ 52 ≤ rounded := (nothingBetween (2 ^ 52)).1 (by exact_mod_cast fine)
    have least : (2 : ℚ) ^ 52 ≤ rounded := by exact_mod_cast least
    calc (mantissa : ℚ) * 2 ^ exponent ≤ 2 ^ 52 * 2 ^ place := mul_two_zpow_le bounded finer
      _ ≤ rounded * 2 ^ place := mul_le_mul_of_nonneg_right least step.le

/-- Rounding up does not go past a binary64 number. -/
theorem nearest_le_of_le {number value : ℚ} (isNumber : IsNumber number) (nonnegative : 0 ≤ value)
    (above : value ≤ number) : nearest value ≤ number := by
  obtain ⟨mantissa, exponent, bounded, rfl⟩ := isNumber
  rcases nonnegative.eq_or_lt with rfl | positive
  · rwa [nearest_zero]
  obtain ⟨rounded, place, isNearest, fine, -, nothingBetween⟩ := nearest_spec positive
  have step : (0 : ℚ) < 2 ^ place := zpow_pos two_pos _
  rw [isNearest]
  rcases le_or_gt place exponent with coarser | finer
  · -- The number is on the grid.
    obtain ⟨more, rfl⟩ := Int.le.dest coarser
    rw [mul_two_zpow_add] at above ⊢
    exact mul_le_mul_of_nonneg_right (by exact_mod_cast (nothingBetween _).2 above) step.le
  · -- The number has at most 2 ^ 52 steps of the grid, and the value has no fewer.
    have few := mul_two_zpow_le bounded finer
    have most : rounded ≤ 2 ^ 52 :=
      (nothingBetween (2 ^ 52)).2 (by exact_mod_cast above.trans few)
    have most : (rounded : ℚ) ≤ 2 ^ 52 := by exact_mod_cast most
    calc (rounded : ℚ) * 2 ^ place ≤ 2 ^ 52 * 2 ^ place := mul_le_mul_of_nonneg_right most step.le
      _ ≤ value := fine
      _ ≤ mantissa * 2 ^ exponent := above

/-! ## Natural numbers -/

/-- A natural number is rounded on a grid of whole numbers, by at most a 2 ^ 53rd part of it. -/
theorem ofNat_spec (number : ℕ) :
    IsNumber (ofNat number) ∧ |(ofNat number : ℚ) - number| ≤ number / 2 ^ 53 := by
  rcases lt_or_ge number (2 ^ 53) with small | large
  · rw [ofNat_of_lt small, sub_self, abs_zero]
    exact ⟨⟨number, 0, small.le, by rw [zpow_zero, mul_one]⟩, by positivity⟩
  · have notZero : number ≠ 0 := by omega
    have bits : 53 ≤ Nat.log2 number := (Nat.le_log2 notZero).mpr large
    obtain ⟨shift, isShift⟩ : ∃ shift, Nat.log2 number = shift + 52 :=
      ⟨Nat.log2 number - 52, by omega⟩
    have unit : ofNat number = roundedQuotient number (2 ^ shift) * 2 ^ shift := by
      have isUnit : 1 <<< (Nat.log2 number + 1 - precision.toNat) = 2 ^ shift := by
        rw [Nat.one_shiftLeft, isShift]
        rfl
      rw [ofNat, isUnit]
    have lower : 2 ^ 52 * 2 ^ shift ≤ number := by
      rw [← Nat.pow_add, Nat.add_comm, ← isShift]
      exact Nat.log2_self_le notZero
    have upper : number < 2 ^ 53 * 2 ^ shift := by
      rw [← Nat.pow_add, show 53 + shift = Nat.log2 number + 1 by omega]
      exact Nat.lt_log2_self
    have positive : 0 < 2 ^ shift := Nat.two_pow_pos _
    have mantissa : roundedQuotient number (2 ^ shift) ≤ 2 ^ 53 :=
      roundedQuotient_le positive upper.le
    rw [unit]
    refine ⟨⟨_, shift, mantissa, by push_cast; rw [zpow_natCast]⟩, ?_⟩
    have step : (0 : ℚ) < 2 ^ shift := pow_pos two_pos _
    have lower : (2 : ℚ) ^ 52 * 2 ^ shift ≤ number := by exact_mod_cast lower
    have error := abs_roundedQuotient_sub_le number positive
    push_cast at error ⊢
    have scaled := mul_le_mul_of_nonneg_right error step.le
    rw [← abs_of_pos step, ← abs_mul, sub_mul, abs_of_pos step,
      div_mul_cancel₀ _ step.ne'] at scaled
    refine scaled.trans ?_
    rw [le_div_iff₀ (by positivity)]
    linarith

end PrivateRetrieval.Binary64
