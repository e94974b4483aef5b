/-
# Rounded square roots

A rounded square root exceeds the root by at most one step of the grid on which it is rounded,
and the grid is much finer than the root. From four on a root is at most half of the number, which
leaves room for the rounding. So sets of the size that is derived from a table fit into the table,
however the roundings fall out.
-/

import PrivateRetrieval.Proofs.Number.Nearest
import PrivateRetrieval.Retrieval.Size

namespace PrivateRetrieval

namespace Binary64

theorem roundedRoot_le (numerator denominator : ℕ) :
    roundedRoot numerator denominator ≤ Nat.sqrt (numerator / denominator) + 1 := by
  rw [roundedRoot]
  split
  · exact Nat.le_succ _
  · exact le_refl _

/-- What squares to a number from four on, or to less, is at most half of the number. -/
theorem le_half_of_mul_self_le {root number : ℚ} (large : 4 ≤ number)
    (square : root * root ≤ number) : root ≤ number / 2 := by
  by_contra above
  have above : number / 2 < root := not_le.mp above
  nlinarith

/-- The root of a number from four on is at most half of the number, up to the rounding. -/
theorem sqrt_le {number : ℕ} (large : 4 ≤ number) :
    sqrt number ≤ number / 2 + number / 2 ^ 53 := by
  have notZero : number ≠ 0 := by omega
  have many : (4 : ℚ) ≤ number := by exact_mod_cast large
  set half := Nat.log2 number / 2 with isHalf
  set place : ℤ := (half : ℕ) + 1 - precision with isPlace
  obtain ⟨upPos, downPos, power⟩ := scale_eq (2 * place)
  set up := (scale (2 * place)).1
  set down := (scale (2 * place)).2
  set root := Nat.sqrt (number * down / up) with isRoot
  have isSqrt : sqrt number = dyadic (roundedRoot (number * down) up) place := by
    rw [sqrt, if_neg notZero]
  have stepPos : (0 : ℚ) < 2 ^ place := zpow_pos two_pos _
  -- The root before rounding, in steps of the grid.
  have below : (root * 2 ^ place : ℚ) ≤ number / 2 := by
    apply le_half_of_mul_self_le many
    have square : root * root * up ≤ number * down :=
      (Nat.mul_le_mul_right up (Nat.sqrt_le _)).trans (Nat.div_mul_le_self _ _)
    have square : (root * root * up : ℚ) ≤ number * down := by exact_mod_cast square
    have downPos : (0 : ℚ) < down := by exact_mod_cast downPos
    have twice : (2 : ℚ) ^ place * 2 ^ place = up / down := by
      rw [power, ← zpow_add₀ two_ne_zero, two_mul]
    calc (root * 2 ^ place * (root * 2 ^ place) : ℚ) = root * root * (2 ^ place * 2 ^ place) := by
          ring
      _ = root * root * up / down := by rw [twice, mul_div_assoc]
      _ ≤ number := (div_le_iff₀ downPos).mpr square
  -- One step of the grid.
  have fine : (2 : ℚ) ^ place ≤ number / 2 ^ 53 := by
    have power : ((2 : ℚ) ^ half) ≤ number / 2 := by
      apply le_half_of_mul_self_le many
      have square : 2 ^ half * 2 ^ half ≤ number := by
        rw [← Nat.pow_add]
        exact (Nat.pow_le_pow_right Nat.two_pos (by omega)).trans (Nat.log2_self_le notZero)
      exact_mod_cast square
    have step : (2 : ℚ) ^ place = 2 ^ half / 2 ^ 52 := by
      have exponent : place = (half : ℤ) - 52 := by
        rw [isPlace, precision]
        ring
      rw [exponent, zpow_sub₀ two_ne_zero, zpow_natCast]
      norm_num
    rw [step]
    linarith
  have rounded : (roundedRoot (number * down) up : ℚ) ≤ root + 1 := by
    exact_mod_cast roundedRoot_le (number * down) up
  rw [isSqrt, dyadic_eq]
  calc (roundedRoot (number * down) up * 2 ^ place : ℚ) ≤ (root + 1) * 2 ^ place := by gcongr
    _ = root * 2 ^ place + 2 ^ place := by ring
    _ ≤ number / 2 + number / 2 ^ 53 := add_le_add below fine

theorem roundHalfUp_le {value : ℚ} {bound : ℕ} (inside : value + 1 / 2 ≤ bound) :
    roundHalfUp value ≤ bound := by
  have half : mkRat 1 2 = (1 / 2 : ℚ) := by norm_num
  have floor : ((value + mkRat 1 2).floor : ℚ) ≤ bound := by
    rw [half]
    exact (Rat.floor_le _).trans inside
  rw [roundHalfUp, Int.toNat_le]
  exact_mod_cast floor

end Binary64

open Binary64

/-- A table holds a set of the size that is derived from it. -/
theorem setSizeFor_le (rowCount : ℕ) : setSizeFor rowCount ≤ rowCount := by
  rcases Nat.lt_or_ge rowCount 4 with few | many
  · have checked : ∀ rowCount < 4, setSizeFor rowCount ≤ rowCount := by decide +kernel
    exact checked rowCount few
  · obtain ⟨-, error⟩ := ofNat_spec rowCount
    obtain ⟨lower, upper⟩ := abs_le.mp error
    have large : (4 : ℚ) ≤ rowCount := by exact_mod_cast many
    have rounded : 4 ≤ ofNat rowCount := by
      have above : (3 : ℚ) < ofNat rowCount := by
        have small : (rowCount : ℚ) / 2 ^ 53 ≤ rowCount / 8 := by
          gcongr
          norm_num
        linarith
      exact_mod_cast above
    have root := sqrt_le rounded
    apply roundHalfUp_le
    have tiny : (rowCount : ℚ) / 2 ^ 53 ≤ rowCount / 16 := by
      gcongr
      norm_num
    have tinyRounded : (ofNat rowCount : ℚ) / 2 ^ 53 ≤ ofNat rowCount / 16 := by
      gcongr
      norm_num
    linarith

end PrivateRetrieval
