import ApiAssembly.Decimal.Binary64
import Mathlib.Algebra.Order.Field.Power
import Mathlib.Data.Int.Log
import Mathlib.Data.Rat.Cast.Order
import Mathlib.Data.Rat.Floor
import Mathlib.Tactic.FieldSimp
import Mathlib.Tactic.Linarith
import Mathlib.Tactic.NormNum
import Mathlib.Tactic.Positivity
import Mathlib.Tactic.Ring

/-!
# Rounding quotients

The nearest floating-point number to a quotient of natural numbers is a matter of the quotient
alone, not of how it is written, and it is the quotient itself where that is a floating-point
number.
-/

namespace ApiAssembly.Decimal

section Quotients

/-- A quotient is rounded in the same way when it is extended by a factor. -/
theorem roundQuotient_mul {factor : Nat} (positive : 0 < factor) (numerator denominator : Nat) :
    roundQuotient (numerator * factor) (denominator * factor) =
      roundQuotient numerator denominator := by
  have twice : 2 * (numerator * factor % (denominator * factor)) =
      2 * (numerator % denominator) * factor := by
    rw [Nat.mul_mod_mul_right, Nat.mul_assoc]
  have above : denominator * factor < 2 * (numerator % denominator) * factor ↔
      denominator < 2 * (numerator % denominator) :=
    Nat.mul_lt_mul_right positive
  have half : 2 * (numerator % denominator) * factor = denominator * factor ↔
      2 * (numerator % denominator) = denominator :=
    Nat.mul_left_inj (Nat.pos_iff_ne_zero.mp positive)
  simp only [roundQuotient, twice, Nat.mul_div_mul_right _ _ positive, above, half]

theorem roundQuotient_congr {numerator denominator other factor : Nat}
    (positive : 0 < denominator) (otherPositive : 0 < factor)
    (equal : numerator * factor = other * denominator) :
    roundQuotient numerator denominator = roundQuotient other factor := by
  rw [← roundQuotient_mul otherPositive numerator denominator,
    ← roundQuotient_mul positive other factor, equal, Nat.mul_comm factor denominator]

/-- A natural number is rounded to itself. -/
theorem roundQuotient_mul_self {denominator : Nat} (positive : 0 < denominator) (whole : Nat) :
    roundQuotient (whole * denominator) denominator = whole := by
  have exact_ : 2 * (whole * denominator % denominator) = 0 := by
    rw [Nat.mul_mod_left]
  simp only [roundQuotient, exact_, Nat.mul_div_cancel _ positive]
  rw [if_neg (by omega)]

theorem roundQuotient_le {numerator denominator bound : Nat} (positive : 0 < denominator)
    (below : numerator ≤ bound * denominator) : roundQuotient numerator denominator ≤ bound := by
  have quotient : numerator / denominator ≤ bound := Nat.div_le_of_le_mul (by
    rw [Nat.mul_comm]
    exact below)
  have parts := Nat.div_add_mod numerator denominator
  simp only [roundQuotient]
  split
  next up =>
    rcases Nat.lt_or_eq_of_le quotient with less | equal
    · exact less
    · rw [equal, Nat.mul_comm] at parts
      omega
  next => exact quotient

end Quotients

namespace Binary64

/-- The quotient of two natural numbers. -/
def quotient (numerator denominator : Nat) : ℚ :=
  (numerator : ℚ) / denominator

section Exponents

variable {numerator denominator : Nat}

theorem quotient_pos (numeratorPositive : 0 < numerator) (denominatorPositive : 0 < denominator) :
    0 < quotient numerator denominator :=
  div_pos (by exact_mod_cast numeratorPositive) (by exact_mod_cast denominatorPositive)

/-- A power of two with an integral exponent as two powers with natural exponents. -/
theorem zpow_two_eq (exponent : Int) :
    (2 : ℚ) ^ exponent = 2 ^ exponent.toNat / 2 ^ (-exponent).toNat := by
  rcases Int.le_total 0 exponent with nonneg | nonpos
  · obtain ⟨size, rfl⟩ := Int.eq_ofNat_of_zero_le nonneg
    simp
  · obtain ⟨size, negated⟩ := Int.eq_ofNat_of_zero_le (Int.neg_nonneg.mpr nonpos)
    obtain rfl : exponent = -(size : Int) := by omega
    simp

/-- The test for the position of a quotient's first bit. -/
theorem short_iff (denominatorPositive : 0 < denominator) (limit : Nat) (exponent : Int) :
    numerator * Nat.pow 2 (-exponent).toNat < limit * denominator * Nat.pow 2 exponent.toNat ↔
      quotient numerator denominator < limit * 2 ^ exponent := by
  have positive : (0 : ℚ) < denominator := by exact_mod_cast denominatorPositive
  have power : (0 : ℚ) < 2 ^ (-exponent).toNat := by positivity
  rw [quotient, zpow_two_eq, ← mul_div_assoc, div_lt_div_iff₀ positive power]
  have cast : (numerator : ℚ) * 2 ^ (-exponent).toNat < limit * 2 ^ exponent.toNat * denominator ↔
      numerator * 2 ^ (-exponent).toNat < limit * 2 ^ exponent.toNat * denominator := by
    exact_mod_cast Iff.rfl
  rw [cast, Nat.mul_right_comm limit]
  rfl

theorem quotient_lt_of_log2 (denominatorPositive : 0 < denominator) :
    quotient numerator denominator < 2 ^ ((numerator.log2 : Int) - denominator.log2 + 1) := by
  have below : (0 : ℚ) < denominator := by exact_mod_cast denominatorPositive
  have numeratorHigh : (numerator : ℚ) < 2 ^ (numerator.log2 + 1) := by
    exact_mod_cast Nat.lt_log2_self
  have denominatorLow : (2 : ℚ) ^ denominator.log2 ≤ denominator := by
    exact_mod_cast Nat.log2_self_le (Nat.pos_iff_ne_zero.mp denominatorPositive)
  rw [quotient, div_lt_iff₀ below, sub_add_eq_add_sub, zpow_sub₀ (by norm_num),
    div_mul_eq_mul_div, lt_div_iff₀ (by positivity)]
  calc (numerator : ℚ) * 2 ^ (denominator.log2 : Int)
      < 2 ^ ((numerator.log2 : Int) + 1) * 2 ^ (denominator.log2 : Int) :=
        mul_lt_mul_of_pos_right (by exact_mod_cast numeratorHigh) (by positivity)
    _ ≤ 2 ^ ((numerator.log2 : Int) + 1) * denominator := by
        rw [zpow_natCast]
        exact mul_le_mul_of_nonneg_left denominatorLow (by positivity)

theorem le_quotient_of_log2 (numeratorPositive : 0 < numerator)
    (denominatorPositive : 0 < denominator) :
    2 ^ ((numerator.log2 : Int) - denominator.log2 - 1) ≤ quotient numerator denominator := by
  have below : (0 : ℚ) < denominator := by exact_mod_cast denominatorPositive
  have numeratorLow : (2 : ℚ) ^ numerator.log2 ≤ numerator := by
    exact_mod_cast Nat.log2_self_le (Nat.pos_iff_ne_zero.mp numeratorPositive)
  have denominatorHigh : (denominator : ℚ) < 2 ^ (denominator.log2 + 1) := by
    exact_mod_cast Nat.lt_log2_self
  rw [quotient, le_div_iff₀ below, sub_sub, zpow_sub₀ (by norm_num), div_mul_eq_mul_div,
    div_le_iff₀ (by positivity)]
  calc (2 : ℚ) ^ (numerator.log2 : Int) * denominator
      ≤ numerator * denominator := by
        rw [zpow_natCast]
        exact mul_le_mul_of_nonneg_right numeratorLow (le_of_lt below)
    _ ≤ numerator * 2 ^ ((denominator.log2 : Int) + 1) := by
        refine mul_le_mul_of_nonneg_left (le_of_lt ?_) (by positivity)
        exact_mod_cast denominatorHigh

/-- The first bit of a quotient is found from the first bits of its two numbers. -/
theorem log_quotient (numeratorPositive : 0 < numerator) (denominatorPositive : 0 < denominator) :
    Int.log 2 (quotient numerator denominator) =
      if quotient numerator denominator <
          2 ^ ((numerator.log2 : Int) - denominator.log2) then
        (numerator.log2 : Int) - denominator.log2 - 1
      else (numerator.log2 : Int) - denominator.log2 := by
  have positive := quotient_pos numeratorPositive denominatorPositive
  have above := @quotient_lt_of_log2 numerator denominator denominatorPositive
  have under := le_quotient_of_log2 numeratorPositive denominatorPositive
  have base : ((2 : Nat) : ℚ) = 2 := by norm_num
  split
  next less =>
    have upper := (Int.lt_zpow_iff_log_lt (by norm_num) positive).mp (base ▸ less)
    have lower := (Int.zpow_le_iff_le_log (by norm_num) positive).mp (base ▸ under)
    omega
  next least =>
    have upper := (Int.lt_zpow_iff_log_lt (by norm_num) positive).mp (base ▸ above)
    have lower := (Int.zpow_le_iff_le_log (by norm_num) positive).mp (base ▸ not_lt.mp least)
    omega

end Exponents

section Words

/-- The exponent of the last of the 53 bits of a quotient, or of the last bit that a number may
have. -/
def lastPlace (value : ℚ) : Int :=
  max (Int.log 2 value - 52) (-1074)

/-- A quotient in units of a power of two, rounded. -/
def roundAt (exponent : Int) (numerator denominator : Nat) : Nat :=
  roundQuotient (numerator * Nat.pow 2 (-exponent).toNat)
    (denominator * Nat.pow 2 exponent.toNat)

/-- The number with a word below the sign, which is infinite if the word is too large. -/
def ofWord (negative : Bool) (word : Nat) : Binary64 :=
  if 2047 * fractionLimit ≤ word then infinity negative else ofMagnitude negative word

variable {numerator denominator : Nat}

/-- The first estimate of the exponent is too large by one or right, which one test tells. -/
theorem exponent_eq (numeratorPositive : 0 < numerator) (denominatorPositive : 0 < denominator)
    {estimate : Int} (estimated : estimate = (numerator.log2 : Int) - denominator.log2 - 52) :
    (if decide (numerator * Nat.pow 2 (-estimate).toNat <
        fractionLimit * denominator * Nat.pow 2 estimate.toNat) = true then estimate - 1
      else estimate) = Int.log 2 (quotient numerator denominator) - 52 := by
  have test := @short_iff numerator denominator denominatorPositive fractionLimit estimate
  have power : (fractionLimit : ℚ) * 2 ^ estimate =
      2 ^ ((numerator.log2 : Int) - denominator.log2) := by
    have limit : (fractionLimit : ℚ) = 2 ^ (52 : Int) := by norm_num [fractionLimit]
    rw [limit, ← zpow_add₀ (by norm_num), estimated]
    congr 1
    omega
  rw [power] at test
  simp only [decide_eq_true_eq, test, log_quotient numeratorPositive denominatorPositive]
  split
  · omega
  · omega

theorem ofRatio_eq (negative : Bool) (numeratorPositive : 0 < numerator)
    (denominatorPositive : 0 < denominator) :
    ofRatio negative numerator denominator =
      ofWord negative
        ((lastPlace (quotient numerator denominator) + 1074).toNat * fractionLimit +
          roundAt (lastPlace (quotient numerator denominator)) numerator denominator) := by
  rw [ofRatio, if_neg (Nat.pos_iff_ne_zero.mp numeratorPositive)]
  simp only [exponent_eq numeratorPositive denominatorPositive rfl]
  rfl

theorem roundAt_congr {other factor : Nat} (denominatorPositive : 0 < denominator)
    (factorPositive : 0 < factor) (equal : numerator * factor = other * denominator)
    (exponent : Int) :
    roundAt exponent numerator denominator = roundAt exponent other factor := by
  have power (size : Nat) : 0 < Nat.pow 2 size := Nat.pow_pos (by decide)
  refine roundQuotient_congr (Nat.mul_pos denominatorPositive (power _))
    (Nat.mul_pos factorPositive (power _)) ?_
  calc numerator * Nat.pow 2 (-exponent).toNat * (factor * Nat.pow 2 exponent.toNat)
      = numerator * factor * (Nat.pow 2 (-exponent).toNat * Nat.pow 2 exponent.toNat) := by ring
    _ = other * Nat.pow 2 (-exponent).toNat * (denominator * Nat.pow 2 exponent.toNat) := by
        rw [equal]
        ring

/-- Rounding is a matter of the quotient. -/
theorem ofRatio_congr (negative : Bool) {other factor : Nat} (numeratorPositive : 0 < numerator)
    (denominatorPositive : 0 < denominator) (factorPositive : 0 < factor)
    (equal : numerator * factor = other * denominator) :
    ofRatio negative numerator denominator = ofRatio negative other factor := by
  have otherPositive : 0 < other := by
    have positive := Nat.mul_pos numeratorPositive factorPositive
    rw [equal] at positive
    exact Nat.pos_of_mul_pos_right positive
  have same : quotient numerator denominator = quotient other factor := by
    have left : (denominator : ℚ) ≠ 0 := by
      exact_mod_cast Nat.pos_iff_ne_zero.mp denominatorPositive
    have right : (factor : ℚ) ≠ 0 := by exact_mod_cast Nat.pos_iff_ne_zero.mp factorPositive
    rw [quotient, quotient, div_eq_div_iff left right]
    exact_mod_cast equal
  rw [ofRatio_eq negative numeratorPositive denominatorPositive,
    ofRatio_eq negative otherPositive factorPositive, same,
    roundAt_congr denominatorPositive factorPositive equal]

end Words

section Representable

variable {x : Binary64} {numerator denominator : Nat}

theorem ofMagnitude_magnitude (x : Binary64) : ofMagnitude x.isNegative x.magnitude = x := by
  have small := x.bits.toNat_lt
  have word : (if x.isNegative = true then signBit + x.magnitude else x.magnitude) =
      x.bits.toNat := by
    cases sign : x.isNegative with
    | true =>
        rw [isNegative, decide_eq_true_eq, signBit] at sign
        rw [if_pos rfl, magnitude, signBit]
        omega
    | false =>
        rw [isNegative, decide_eq_false_iff_not, signBit] at sign
        rw [if_neg Bool.false_ne_true, magnitude, signBit]
        omega
  rw [ofMagnitude, word, UInt64.ofNat_toNat]

theorem magnitude_eq (x : Binary64) :
    x.magnitude = x.exponentField * fractionLimit + x.fractionField := by
  rw [exponentField, fractionField, Nat.mul_comm]
  exact (Nat.div_add_mod _ _).symm

theorem fractionField_lt (x : Binary64) : x.fractionField < fractionLimit :=
  Nat.mod_lt _ (by decide)

/-- The word of a number below its sign is put together of its exponent and significand. -/
theorem word_eq_magnitude (x : Binary64) :
    (x.exponent + 1074).toNat * fractionLimit + x.significand = x.magnitude := by
  have parts := x.magnitude_eq
  rw [exponent, significand]
  split
  next subnormal =>
    rw [subnormal] at parts ⊢
    simpa using parts.symm
  next normal =>
    obtain ⟨field, same⟩ := Nat.exists_eq_succ_of_ne_zero normal
    have shift : (((max x.exponentField 1 : Nat) : Int) - 1075 + 1074).toNat = field := by omega
    rw [shift, parts, same, Nat.succ_mul]
    omega

theorem significand_pos (nonzero : x.isZero = false) : 0 < x.significand := by
  rw [isZero, decide_eq_false_iff_not] at nonzero
  have parts := x.magnitude_eq
  rw [significand]
  split
  next subnormal => rw [subnormal] at parts; omega
  next => rw [fractionLimit]; omega

theorem significand_lt (x : Binary64) : x.significand < 2 * fractionLimit := by
  have below := x.fractionField_lt
  rw [significand]
  split
  · omega
  · omega

/-- A number has 53 bits unless its last bit is the last one that there is. -/
theorem significand_ge_or (x : Binary64) :
    fractionLimit ≤ x.significand ∨ x.exponent = -1074 := by
  rw [significand, exponent]
  split
  next subnormal => right; rw [subnormal]; rfl
  next => left; omega

theorem exponent_ge (x : Binary64) : -1074 ≤ x.exponent := by
  rw [exponent]
  omega

theorem lastPlace_eq_exponent (nonzero : x.isZero = false) :
    lastPlace (x.significand * 2 ^ x.exponent) = x.exponent := by
  have positive : (0 : ℚ) < x.significand * 2 ^ x.exponent := by
    have := significand_pos nonzero
    positivity
  have base : ((2 : Nat) : ℚ) = 2 := by norm_num
  have limit : (fractionLimit : ℚ) = 2 ^ (52 : Int) := by norm_num [fractionLimit]
  have high : (x.significand : ℚ) * 2 ^ x.exponent < 2 ^ (x.exponent + 53) := by
    have small : (x.significand : ℚ) < 2 * fractionLimit := by exact_mod_cast x.significand_lt
    rw [zpow_add₀ (by norm_num), mul_comm]
    refine mul_lt_mul_of_pos_left (lt_of_lt_of_eq small ?_) (by positivity)
    rw [limit]
    norm_num
  have upper := (Int.lt_zpow_iff_log_lt (by norm_num) positive).mp (base ▸ high)
  have least := x.exponent_ge
  rw [lastPlace]
  rcases x.significand_ge_or with normal | last
  · have low : (2 : ℚ) ^ (x.exponent + 52) ≤ x.significand * 2 ^ x.exponent := by
      have large : (fractionLimit : ℚ) ≤ x.significand := by exact_mod_cast normal
      rw [zpow_add₀ (by norm_num), mul_comm, ← limit]
      exact mul_le_mul_of_nonneg_right large (by positivity)
    have lower := (Int.zpow_le_iff_le_log (by norm_num) positive).mp (base ▸ low)
    omega
  · omega

/-- A quotient that is a floating-point number is rounded to this number. -/
theorem ofRatio_eq_self (finite : x.isFinite = true) (nonzero : x.isZero = false)
    (denominatorPositive : 0 < denominator)
    (exact_ : quotient numerator denominator = x.significand * 2 ^ x.exponent) :
    ofRatio x.isNegative numerator denominator = x := by
  have significant := significand_pos nonzero
  have below : (0 : ℚ) < denominator := by exact_mod_cast denominatorPositive
  have power : (0 : ℚ) < 2 ^ (-x.exponent).toNat := by positivity
  have cross : numerator * Nat.pow 2 (-x.exponent).toNat =
      x.significand * (denominator * Nat.pow 2 x.exponent.toNat) := by
    have equal := exact_
    rw [quotient, zpow_two_eq, ← mul_div_assoc, div_eq_div_iff below.ne' power.ne'] at equal
    have inNat : numerator * 2 ^ (-x.exponent).toNat =
        x.significand * 2 ^ x.exponent.toNat * denominator := by exact_mod_cast equal
    rw [Nat.mul_right_comm, Nat.mul_assoc] at inNat
    exact inNat
  have numeratorPositive : 0 < numerator := by
    rcases Nat.eq_zero_or_pos numerator with rfl | positive
    · rw [quotient, Nat.cast_zero, zero_div] at exact_
      have positive : (0 : ℚ) < x.significand * 2 ^ x.exponent := by positivity
      rw [← exact_] at positive
      exact absurd positive (lt_irrefl 0)
    · exact positive
  have rounded : roundAt x.exponent numerator denominator = x.significand := by
    rw [roundAt, cross]
    exact roundQuotient_mul_self (Nat.mul_pos denominatorPositive (Nat.pow_pos (by decide))) _
  rw [isFinite, decide_eq_true_eq, exponentField] at finite
  have fits : ¬2047 * fractionLimit ≤ x.magnitude := by
    rw [← Nat.le_div_iff_mul_le (by decide)]
    omega
  rw [ofRatio_eq _ numeratorPositive denominatorPositive, exact_, lastPlace_eq_exponent nonzero,
    rounded, word_eq_magnitude, ofWord, if_neg fits, ofMagnitude_magnitude]

end Representable

end Binary64

end ApiAssembly.Decimal
