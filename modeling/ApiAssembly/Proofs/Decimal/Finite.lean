import ApiAssembly.Proofs.Decimal.Shortest

/-!
# Finite results

Rounding gives a finite number where the quotient is not far out of range, and so does every
step of scaling a number down.
-/

namespace ApiAssembly.Decimal.Binary64

variable {x y : Binary64} {numerator denominator : Nat}

theorem isFinite_ofMagnitude (negative : Bool) {word : Nat} (small : word < 2047 * fractionLimit) :
    (ofMagnitude negative word).isFinite = true := by
  have below : word < signBit := small.trans_le (by decide)
  rw [isFinite, exponentField, magnitude_ofMagnitude below, decide_eq_true_eq]
  exact Nat.div_lt_of_lt_mul (by rwa [Nat.mul_comm])

theorem isFinite_zero (negative : Bool) : (zero negative).isFinite = true :=
  isFinite_ofMagnitude negative (by decide)

theorem isFinite_neg (finite : x.isFinite = true) : x.neg.isFinite = true := by
  refine isFinite_ofMagnitude _ ?_
  rw [isFinite, exponentField, decide_eq_true_eq] at finite
  exact (Nat.div_lt_iff_lt_mul (by decide)).mp finite

/-- A quotient below half of the largest power of two in range is rounded to a finite number. -/
theorem isFinite_ofRatio (negative : Bool) (denominatorPositive : 0 < denominator)
    (below : quotient numerator denominator < 2 ^ (1023 : Int)) :
    (ofRatio negative numerator denominator).isFinite = true := by
  rcases Nat.eq_zero_or_pos numerator with rfl | numeratorPositive
  · rw [ofRatio, if_pos rfl]
    exact isFinite_zero negative
  have positive := quotient_pos numeratorPositive denominatorPositive
  have log : Int.log 2 (quotient numerator denominator) < 1023 :=
    (Int.lt_zpow_iff_log_lt (by decide) positive).mp (by exact_mod_cast below)
  have place : lastPlace (quotient numerator denominator) ≤ 970 := by
    rw [lastPlace]
    omega
  have rounded : roundAt (lastPlace (quotient numerator denominator)) numerator denominator ≤
      2 * fractionLimit := by
    refine roundQuotient_le (Nat.mul_pos denominatorPositive (Nat.pow_pos (by decide))) ?_
    rw [← Nat.mul_assoc]
    refine ((short_iff denominatorPositive _ _).mpr ?_).le
    have limit : ((2 * fractionLimit : Nat) : ℚ) = 2 ^ (53 : Int) := by norm_num [fractionLimit]
    have atMost : Int.log 2 (quotient numerator denominator) + 1 ≤
        53 + lastPlace (quotient numerator denominator) := by
      rw [lastPlace]
      omega
    calc quotient numerator denominator
        < 2 ^ (Int.log 2 (quotient numerator denominator) + 1) := by
          exact_mod_cast Int.lt_zpow_succ_log_self (by decide) (quotient numerator denominator)
      _ ≤ 2 ^ (53 + lastPlace (quotient numerator denominator)) :=
          zpow_le_zpow_right₀ (by norm_num) atMost
      _ = ((2 * fractionLimit : Nat) : ℚ) * 2 ^ lastPlace (quotient numerator denominator) := by
          rw [limit, zpow_add₀ (by norm_num)]
  rw [ofRatio_eq negative numeratorPositive denominatorPositive, ofWord]
  have word : (lastPlace (quotient numerator denominator) + 1074).toNat * fractionLimit +
      roundAt (lastPlace (quotient numerator denominator)) numerator denominator <
        2047 * fractionLimit := by
    have exponent : (lastPlace (quotient numerator denominator) + 1074).toNat ≤ 2044 := by omega
    have scaled := Nat.mul_le_mul_right fractionLimit exponent
    rw [fractionLimit] at *
    omega
  rw [if_neg (by omega)]
  exact isFinite_ofMagnitude negative word

theorem ratio_positive (x : Binary64) : 0 < x.ratio.2 :=
  Nat.pow_pos (by decide)

theorem quotient_ratio (x : Binary64) :
    quotient x.ratio.1 x.ratio.2 = x.significand * 2 ^ x.exponent := by
  rw [quotient, ratio, zpow_two_eq, ← mul_div_assoc]
  simp

/-- The size of a finite number. -/
theorem quotient_ratio_lt (finite : x.isFinite = true) :
    quotient x.ratio.1 x.ratio.2 < 2 ^ (1024 : Int) := by
  have significand : (x.significand : ℚ) < 2 ^ (53 : Int) := by
    have limit : ((2 * fractionLimit : Nat) : ℚ) = 2 ^ (53 : Int) := by norm_num [fractionLimit]
    rw [← limit]
    exact_mod_cast x.significand_lt
  calc quotient x.ratio.1 x.ratio.2
      = x.significand * 2 ^ x.exponent := x.quotient_ratio
    _ < 2 ^ (53 : Int) * 2 ^ x.exponent := by gcongr
    _ ≤ 2 ^ (53 : Int) * 2 ^ (971 : Int) := by
        gcongr
        · norm_num
        · exact exponent_le finite
    _ = 2 ^ (1024 : Int) := by rw [← zpow_add₀ (by norm_num)]; rfl

/-- Dividing by a number of at least two gives a finite number. -/
theorem isFinite_div (finite : x.isFinite = true) (large : 2 * y.ratio.2 ≤ y.ratio.1) :
    (x.div y).isFinite = true := by
  have below := x.ratio_positive
  have divisorBelow := y.ratio_positive
  have divisor : 0 < y.ratio.1 := by omega
  refine isFinite_ofRatio _ (Nat.mul_pos below divisor) ?_
  have half : quotient y.ratio.2 y.ratio.1 ≤ 1 / 2 := by
    have positive : (0 : ℚ) < y.ratio.1 := by exact_mod_cast divisor
    rw [quotient, div_le_div_iff₀ positive (by norm_num)]
    have cast : (2 * y.ratio.2 : ℚ) ≤ y.ratio.1 := by exact_mod_cast large
    linarith
  have product : quotient (x.ratio.1 * y.ratio.2) (x.ratio.2 * y.ratio.1) =
      quotient x.ratio.1 x.ratio.2 * quotient y.ratio.2 y.ratio.1 := by
    rw [quotient, quotient, quotient, div_mul_div_comm]
    push_cast
    rfl
  have nonneg : 0 ≤ quotient x.ratio.1 x.ratio.2 := by
    rw [quotient]
    positivity
  calc quotient (x.ratio.1 * y.ratio.2) (x.ratio.2 * y.ratio.1)
      = quotient x.ratio.1 x.ratio.2 * quotient y.ratio.2 y.ratio.1 := product
    _ ≤ quotient x.ratio.1 x.ratio.2 * (1 / 2) := mul_le_mul_of_nonneg_left half nonneg
    _ < 2 ^ (1024 : Int) * (1 / 2) := by
        gcongr
        exact quotient_ratio_lt finite
    _ = 2 ^ (1023 : Int) := by
        have split : (2 : ℚ) ^ (1024 : Int) = 2 ^ (1023 : Int) * 2 :=
          zpow_add_one₀ (by norm_num) 1023
        rw [split]
        ring

/-- A row of digits in 64 bits is a finite number. -/
theorem isFinite_ofDecimal {digits : Nat} (small : digits < 10 ^ 20) :
    (ofDecimal false digits 0).isFinite = true := by
  rcases Nat.eq_zero_or_pos digits with rfl | positive
  · rw [ofDecimal_zero]
    exact isFinite_zero false
  have length := (length_natDigits_le_iff (by decide)).mpr small
  rw [ofDecimal_eq_ofRatio false positive.ne' (by rw [position]; omega) (by rw [position]; omega)]
  refine isFinite_ofRatio false (Nat.pow_pos (by decide)) ?_
  have size : quotient (digits * Nat.pow 10 (0 : Int).toNat) (Nat.pow 10 (-(0 : Int)).toNat) =
      digits := by
    simp [quotient]
  have bound : (digits : ℚ) < 10 ^ 20 := by exact_mod_cast small
  rw [size]
  refine bound.trans ?_
  calc (10 : ℚ) ^ 20 < 2 ^ (67 : Int) := by norm_num
    _ ≤ 2 ^ (1023 : Int) := zpow_le_zpow_right₀ (by norm_num) (by decide)

/-- The powers of ten in range are at least two. -/
theorem two_le_power : ∀ count < 308,
    2 * (ofDecimal false 1 ((count + 1 : Nat) : Int)).ratio.2 ≤
      (ofDecimal false 1 ((count + 1 : Nat) : Int)).ratio.1 := by
  decide +kernel

end ApiAssembly.Decimal.Binary64
