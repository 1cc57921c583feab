import ApiAssembly.Proofs.Decimal.Numeral
import ApiAssembly.Proofs.Decimal.Rounding

/-!
# Written numbers are read back

The decimal that the search for the fewest digits ends with is read back as the number, and so
is its text in every layout, with the sign of the number in front.
-/

namespace ApiAssembly.Decimal

open Binary64

section Decimals

variable {digits : Nat} {exponent : Int}

/-- The place of the first digit, counted from the point. -/
def position (digits : Nat) (exponent : Int) : Int :=
  (natDigits digits).length + exponent

theorem ofDecimal_eq_ofRatio (negative : Bool) (nonzero : digits ≠ 0)
    (low : -330 ≤ position digits exponent) (high : position digits exponent ≤ 330) :
    ofDecimal negative digits exponent =
      ofRatio negative (digits * Nat.pow 10 exponent.toNat) (Nat.pow 10 (-exponent).toNat) := by
  rw [position, natDigits] at low high
  simp only [ofDecimal, nonzero, false_or]
  rw [if_neg (by omega), if_neg (by omega)]

/-- Zeros behind the digits move the exponent. -/
theorem ofDecimal_mul_pow (negative : Bool) (nonzero : digits ≠ 0) (count : Nat) (exponent : Int) :
    ofDecimal negative (digits * 10 ^ count) exponent =
      ofDecimal negative digits (exponent + count) := by
  have power (size : Nat) : 0 < Nat.pow 10 size := Nat.pow_pos (by decide)
  have scaled : digits * 10 ^ count ≠ 0 := Nat.mul_ne_zero nonzero (power count).ne'
  have length := length_natDigits_mul_pow nonzero count
  have place : position (digits * 10 ^ count) exponent = position digits (exponent + count) := by
    rw [position, position, length]
    omega
  have ratio : ofRatio negative (digits * 10 ^ count * Nat.pow 10 exponent.toNat)
      (Nat.pow 10 (-exponent).toNat) =
      ofRatio negative (digits * Nat.pow 10 (exponent + count).toNat)
        (Nat.pow 10 (-(exponent + count)).toNat) := by
    refine ofRatio_congr negative (Nat.mul_pos (Nat.pos_of_ne_zero scaled) (power _)) (power _)
      (power _) ?_
    have exponents : count + exponent.toNat + (-(exponent + count)).toNat =
        (exponent + count).toNat + (-exponent).toNat := by omega
    calc digits * 10 ^ count * Nat.pow 10 exponent.toNat * Nat.pow 10 (-(exponent + count)).toNat
        = digits * 10 ^ (count + exponent.toNat + (-(exponent + count)).toNat) := by
          simp only [Nat.pow_eq]
          ring
      _ = digits * Nat.pow 10 (exponent + count).toNat * Nat.pow 10 (-exponent).toNat := by
          rw [exponents]
          simp only [Nat.pow_eq]
          ring
  rw [position, position, natDigits, natDigits] at place
  simp only [ofDecimal, nonzero, scaled, false_or, place, ratio]

theorem magnitude_ofMagnitude {negative : Bool} {word : Nat} (small : word < signBit) :
    (ofMagnitude negative word).magnitude = word := by
  rw [signBit] at small
  rw [ofMagnitude, magnitude, signBit, UInt64.toNat_ofNat']
  split <;> omega

theorem ofMagnitude_ofWord (negative : Bool) (word : Nat) :
    ofMagnitude negative (ofWord false word).magnitude = ofWord negative word := by
  rw [ofWord, ofWord]
  split
  · rw [infinity, magnitude_ofMagnitude (by decide)]
    rfl
  next small =>
    have below : word < signBit := by
      rw [fractionLimit] at small
      rw [signBit]
      omega
    rw [magnitude_ofMagnitude below]

/-- The sign of a decimal is that of its number. -/
theorem ofDecimal_eq_ofMagnitude (negative : Bool) (digits : Nat) (exponent : Int) :
    ofDecimal negative digits exponent =
      ofMagnitude negative (ofDecimal false digits exponent).magnitude := by
  rw [ofDecimal, ofDecimal]
  split
  · rw [Binary64.zero, Binary64.zero, magnitude_ofMagnitude (by decide)]
  next some =>
    split
    · rw [infinity, infinity, magnitude_ofMagnitude (by decide)]
    · have power (size : Nat) : 0 < Nat.pow 10 size := Nat.pow_pos (by decide)
      have positive : 0 < digits := Nat.pos_of_ne_zero fun zero => some (.inl zero)
      rw [ofRatio_eq _ (Nat.mul_pos positive (power _)) (power _),
        ofRatio_eq _ (Nat.mul_pos positive (power _)) (power _), ofMagnitude_ofWord]

end Decimals

namespace Scaled

theorem toBinary64_dropZeros {decimal : Scaled} (nonzero : decimal.digits ≠ 0) (count : Nat) :
    (decimal.dropZeros count).toBinary64 = decimal.toBinary64 ∧
      (decimal.dropZeros count).digits ≠ 0 := by
  induction count generalizing decimal with
  | zero => exact ⟨rfl, nonzero⟩
  | succ count ih =>
      rw [dropZeros]
      split
      next ends =>
        have shorter : decimal.digits / 10 ≠ 0 := by omega
        obtain ⟨same, kept⟩ := @ih ⟨decimal.digits / 10, decimal.exponent + 1⟩ shorter
        refine ⟨same.trans ?_, kept⟩
        have whole : decimal.digits / 10 * 10 ^ 1 = decimal.digits := by omega
        have moved := ofDecimal_mul_pow false shorter 1 decimal.exponent
        rw [whole] at moved
        exact moved.symm
      next => exact ⟨rfl, nonzero⟩

end Scaled

section Searching

variable {x : Binary64}

/-- The decimal with all digits of a number. -/
def exactDecimal (x : Binary64) : Scaled :=
  ⟨x.significand * Nat.pow 2 x.exponent.toNat * Nat.pow 5 (-x.exponent).toNat, min x.exponent 0⟩

theorem exponent_le (finite : x.isFinite = true) : x.exponent ≤ 971 := by
  rw [isFinite, decide_eq_true_eq] at finite
  rw [exponent]
  omega

theorem exactDecimal_ne_zero (nonzero : x.isZero = false) : (exactDecimal x).digits ≠ 0 :=
  Nat.mul_ne_zero (Nat.mul_ne_zero (significand_pos nonzero).ne' (Nat.pow_pos (by decide)).ne')
    (Nat.pow_pos (by decide)).ne'

/-- A whole number has no more than 330 digits. -/
theorem position_exactDecimal_of_whole (finite : x.isFinite = true) (whole : 0 ≤ x.exponent) :
    0 ≤ position (exactDecimal x).digits (exactDecimal x).exponent ∧
      position (exactDecimal x).digits (exactDecimal x).exponent ≤ 330 := by
  have large := exponent_le finite
  have bound := x.significand_lt
  rw [fractionLimit] at bound
  obtain ⟨size, same⟩ := Int.eq_ofNat_of_zero_le whole
  have digits : (exactDecimal x).digits < 10 ^ 330 := by
    have noFraction : (-(size : Int)).toNat = 0 := by omega
    have power : 2 ^ size ≤ 2 ^ 971 := pow_le_pow_right₀ (by decide) (by omega)
    simp only [exactDecimal, same, Int.toNat_natCast, Nat.pow_eq, noFraction, Nat.pow_zero,
      Nat.mul_one]
    have limit : 2 * 0x10000000000000 * 2 ^ 971 < 10 ^ 330 := by decide +kernel
    exact Nat.lt_of_le_of_lt (Nat.mul_le_mul bound.le power) limit
  have length := (length_natDigits_le_iff (by decide)).mpr digits
  have exponent : (exactDecimal x).exponent = 0 := by
    simp only [exactDecimal]
    omega
  rw [position, exponent]
  omega

theorem pow_ten_le_pow_five {count : Nat} (few : count ≤ 743) : 10 ^ count ≤ 5 ^ (331 + count) := by
  have twos : 2 ^ count ≤ 5 ^ 331 :=
    (Nat.pow_le_pow_right (by decide) few).trans (by decide +kernel)
  calc 10 ^ count = 2 ^ count * 5 ^ count := by rw [← Nat.mul_pow]
    _ ≤ 5 ^ 331 * 5 ^ count := Nat.mul_le_mul_right _ twos
    _ = 5 ^ (331 + count) := by rw [Nat.pow_add]

/-- A number with places behind its point has digits enough for its first one to be among the
first 330 places, and no more than 17 digits in front of the point. -/
theorem position_exactDecimal_of_fraction (nonzero : x.isZero = false) (below : x.exponent ≤ 0) :
    -330 ≤ position (exactDecimal x).digits (exactDecimal x).exponent ∧
      position (exactDecimal x).digits (exactDecimal x).exponent ≤ 17 := by
  have small := x.exponent_ge
  have bound := x.significand_lt
  have positive := significand_pos nonzero
  rw [fractionLimit] at bound
  obtain ⟨size, same⟩ := Int.eq_ofNat_of_zero_le (Int.neg_nonneg.mpr below)
  have exponent : (exactDecimal x).exponent = -(size : Int) := by
    simp only [exactDecimal]
    omega
  have value : (exactDecimal x).digits = x.significand * 5 ^ size := by
    simp only [exactDecimal, same, Int.toNat_natCast, Nat.pow_eq]
    rw [Int.toNat_of_nonpos below, Nat.pow_zero, Nat.mul_one]
  have high : (exactDecimal x).digits < 10 ^ (17 + size) := by
    have power : 5 ^ size ≤ 10 ^ size := Nat.pow_le_pow_left (by decide) size
    rw [value, Nat.pow_add]
    exact Nat.mul_lt_mul_of_lt_of_le (by omega) power (Nat.pow_pos (by decide))
  have length := (length_natDigits_le_iff (by omega)).mpr high
  refine ⟨?_, by rw [position, exponent]; omega⟩
  by_contra far
  rw [position, exponent] at far
  have inhabited := List.length_pos_of_ne_nil (natDigits_ne_nil (exactDecimal x).digits)
  obtain ⟨count, rfl⟩ := Nat.exists_eq_add_of_le (by omega : 331 ≤ size)
  have few : (exactDecimal x).digits < 10 ^ count :=
    (length_natDigits_le_iff (by omega)).mp (by omega)
  have many := @pow_ten_le_pow_five count (by omega)
  rw [value] at few
  have least := Nat.le_mul_of_pos_left (5 ^ (331 + count)) positive
  omega

/-- The first digit of a number is not far from the point. -/
theorem position_exactDecimal (finite : x.isFinite = true) (nonzero : x.isZero = false) :
    -330 ≤ position (exactDecimal x).digits (exactDecimal x).exponent ∧
      position (exactDecimal x).digits (exactDecimal x).exponent ≤ 330 := by
  rcases Int.le_total 0 x.exponent with whole | below
  · obtain ⟨low, high⟩ := position_exactDecimal_of_whole finite whole
    omega
  · obtain ⟨low, high⟩ := position_exactDecimal_of_fraction nonzero below
    omega

theorem quotient_exactDecimal (x : Binary64) :
    quotient ((exactDecimal x).digits * Nat.pow 10 (exactDecimal x).exponent.toNat)
        (Nat.pow 10 (-(exactDecimal x).exponent).toNat) =
      x.significand * 2 ^ x.exponent := by
  rcases Int.le_total 0 x.exponent with whole | below
  · obtain ⟨size, same⟩ := Int.eq_ofNat_of_zero_le whole
    have none : (-(size : Int)).toNat = 0 := by omega
    simp [quotient, exactDecimal, same, none]
  · obtain ⟨size, negated⟩ := Int.eq_ofNat_of_zero_le (Int.neg_nonneg.mpr below)
    have same : x.exponent = -(size : Int) := by omega
    have none : (-(size : Int)).toNat = 0 := by omega
    have least : min (-(size : Int)) 0 = -(size : Int) := by omega
    have ten : (10 : ℚ) ^ size = 2 ^ size * 5 ^ size := by
      rw [← mul_pow]
      norm_num
    simp only [quotient, exactDecimal, same, none, least, neg_neg, Int.toNat_natCast, Nat.pow_eq,
      pow_zero, mul_one, Nat.cast_mul, Nat.cast_pow, Nat.cast_ofNat, ten, zpow_neg, zpow_natCast]
    field_simp

theorem toBinary64_exactDecimal (finite : x.isFinite = true) (nonzero : x.isZero = false)
    (positive : x.isNegative = false) : (exactDecimal x).toBinary64 = x := by
  obtain ⟨low, high⟩ := position_exactDecimal finite nonzero
  have rounded := ofRatio_eq_self finite nonzero (Nat.pow_pos (by decide))
    (quotient_exactDecimal x)
  rw [positive] at rounded
  rw [Scaled.toBinary64, ofDecimal_eq_ofRatio _ (exactDecimal_ne_zero nonzero) low high]
  exact rounded

theorem digits_ne_zero {decimal : Scaled} (nonzero : x.isZero = false)
    (same : decimal.toBinary64 = x) : decimal.digits ≠ 0 := by
  intro zero
  rw [Scaled.toBinary64, ofDecimal, if_pos (.inl zero)] at same
  rw [← same] at nonzero
  exact absurd nonzero (by decide)

/-- The search ends with a decimal that is read back. -/
theorem toBinary64_shortest (finite : x.isFinite = true) (nonzero : x.isZero = false)
    (positive : x.isNegative = false) :
    (shortest x).toBinary64 = x ∧ (shortest x).digits ≠ 0 := by
  have found : (((List.range 17).findSome? fun count => readingBack? x (count + 1)).getD
      (exactDecimal x)).toBinary64 = x := by
    cases search : (List.range 17).findSome? fun count => readingBack? x (count + 1) with
    | none => exact toBinary64_exactDecimal finite nonzero positive
    | some decimal =>
        obtain ⟨count, -, reads⟩ := List.exists_of_findSome?_eq_some search
        exact toBinary64_of_readingBack? reads
  obtain ⟨same, kept⟩ := Scaled.toBinary64_dropZeros (digits_ne_zero nonzero found) 400
  exact ⟨same.trans found, kept⟩

end Searching

section Layouts

/-- The power of ten behind the digits of a number. -/
def Layout.powerText (layout : Layout) (place : Int) : List Char :=
  'e' :: ((if layout.exponentPlus = true ∧ 0 ≤ place then ['+'] else []) ++ intDigits place)

/-- The forms that digits with a power of ten can have in a layout: zeros and a point behind the
digits, a point among them, a point and zeros in front of them, or the power of ten written out
behind a single digit or behind a point after the first. -/
inductive LaidOut (layout : Layout) (digits : List Char) (exponent : Int) : List Char → Prop
  | whole {zeros : Nat} (same : exponent = zeros) :
      LaidOut layout digits exponent (digits ++ List.replicate zeros '0' ++ ['.', '0'])
  | inside {count : Nat} (few : count + 1 < digits.length)
      (same : exponent = (count + 1 : Nat) - digits.length) :
      LaidOut layout digits exponent (digits.take (count + 1) ++ '.' :: digits.drop (count + 1))
  | behind {zeros : Nat} (same : exponent = -zeros - digits.length) :
      LaidOut layout digits exponent ('0' :: '.' :: List.replicate zeros '0' ++ digits)
  | single (one : digits.length = 1) :
      LaidOut layout digits exponent (digits ++ layout.powerText exponent)
  | power (several : 1 < digits.length) :
      LaidOut layout digits exponent (digits.take 1 ++
        '.' :: (digits.drop 1 ++ layout.powerText (digits.length + exponent - 1)))

/-- The text of a decimal has one of the forms. -/
theorem Layout.laidOut_scaled (layout : Layout) (decimal : Scaled) :
    LaidOut layout (natDigits decimal.digits) decimal.exponent (layout.scaled decimal) := by
  have inhabited := natDigits_ne_nil decimal.digits
  rw [scaled]
  generalize natDigits decimal.digits = digits at inhabited
  have positive := List.length_pos_of_ne_nil inhabited
  obtain ⟨first, place⟩ : ∃ first : Int, digits.length + decimal.exponent - 1 = first := ⟨_, rfl⟩
  simp only [place]
  by_cases positional : layout.positionalFrom ≤ first ∧ first < layout.positionalBelow
  · rw [if_pos positional]
    by_cases whole : 0 ≤ decimal.exponent
    · rw [if_pos whole]
      exact .whole (Int.toNat_of_nonneg whole).symm
    rw [if_neg whole]
    by_cases front : 0 ≤ first
    · obtain ⟨count, next⟩ : ∃ count, (first + 1).toNat = count + 1 := ⟨first.toNat, by omega⟩
      rw [if_pos front, next]
      exact .inside (by omega) (by omega)
    · rw [if_neg front]
      exact .behind (by omega)
  · rw [if_neg positional]
    by_cases one : digits.length = 1
    · obtain rfl : decimal.exponent = first := by omega
      rw [if_pos one, List.append_nil, List.take_of_length_le one.le, List.append_assoc]
      exact .single one
    · rw [if_neg one, List.append_assoc, List.append_assoc, List.cons_append, ← place]
      exact .power (by omega)

variable {digits : List Char} (negative : Bool)

private theorem zeros_are_digits (count : Nat) : ∀ c ∈ List.replicate count '0', c.isDigit = true :=
  fun _ member => List.eq_of_mem_replicate member ▸ rfl

/-- Digits with zeros up to the point and a zero behind it. -/
theorem readLiteral?_zerosInFront (nonzero : digitsValue digits ≠ 0) (inhabited : digits ≠ [])
    (all : ∀ c ∈ digits, c.isDigit = true) (count : Nat) :
    readLiteral? ((if negative then ['-'] else []) ++
        (digits ++ List.replicate count '0' ++ ['.', '0'])) =
      some (.ofDecimal negative (digitsValue digits) count) := by
  have front : ∀ c ∈ digits ++ List.replicate count '0', c.isDigit = true :=
    fun c member => (List.mem_append.mp member).elim (all c) (zeros_are_digits count c)
  have read := readLiteral?_point negative (List.append_ne_nil_of_left_ne_nil inhabited _) front
    (zeros_are_digits 1) isTail_nil
  have scaled : digitsValue (digits ++ List.replicate count '0' ++ List.replicate 1 '0') =
      digitsValue digits * 10 ^ (count + 1) := by
    rw [List.append_assoc, List.replicate_append_replicate, digitsValue_append,
      digitsValue_zeros, List.length_replicate, Nat.add_zero, Nat.mul_comm]
  have exponent : (0 : Int) - (List.replicate 1 '0').length + (count + 1 : Nat) = count := by
    rw [List.length_replicate]
    omega
  rw [scaled, ofDecimal_mul_pow negative nonzero, exponent] at read
  exact read

/-- Digits with the point among them. -/
theorem readLiteral?_pointInside (all : ∀ c ∈ digits, c.isDigit = true) {count : Nat}
    (positive : 0 < count) (inside : count ≤ digits.length) {tail : List Char} {exponent : Int}
    (isTail : IsTail tail exponent) :
    readLiteral? ((if negative then ['-'] else []) ++
        (digits.take count ++ '.' :: (digits.drop count ++ tail))) =
      some (.ofDecimal negative (digitsValue digits) (exponent - digits.length + count)) := by
  have inhabited : digits.take count ≠ [] :=
    List.ne_nil_of_length_pos (by rw [List.length_take]; omega)
  have front : ∀ c ∈ digits.take count, c.isDigit = true :=
    fun c member => all c (List.mem_of_mem_take member)
  have behind : ∀ c ∈ digits.drop count, c.isDigit = true :=
    fun c member => all c (List.mem_of_mem_drop member)
  have read := readLiteral?_point negative inhabited front behind isTail
  have place : exponent - (digits.drop count).length = exponent - digits.length + count := by
    rw [List.length_drop]
    omega
  rwa [List.take_append_drop, place] at read

/-- Digits with zeros behind the point in front of them. -/
theorem readLiteral?_zerosBehind (all : ∀ c ∈ digits, c.isDigit = true) (count : Nat) :
    readLiteral? ((if negative then ['-'] else []) ++
        ('0' :: '.' :: List.replicate count '0' ++ digits)) =
      some (.ofDecimal negative (digitsValue digits) (-count - digits.length)) := by
  have behind : ∀ c ∈ List.replicate count '0' ++ digits, c.isDigit = true :=
    fun c member => (List.mem_append.mp member).elim (zeros_are_digits count c) (all c)
  have read := @readLiteral?_point ['0'] _ [] 0 negative (by simp) (zeros_are_digits 1) behind
    isTail_nil
  have same : digitsValue (['0'] ++ (List.replicate count '0' ++ digits)) = digitsValue digits := by
    rw [← List.append_assoc, digitsValue_append, List.singleton_append, ← List.replicate_succ,
      digitsValue_zeros, Nat.mul_zero, Nat.zero_add]
  have exponent : (0 : Int) - (List.replicate count '0' ++ digits).length =
      -count - digits.length := by
    rw [List.length_append, List.length_replicate]
    omega
  rwa [same, exponent, List.append_nil] at read

variable (layout : Layout) {decimal : Scaled}

/-- A decimal is read back in every layout. -/
theorem Layout.readLiteral?_scaled (nonzero : decimal.digits ≠ 0) :
    readLiteral? ((if negative then ['-'] else []) ++ layout.scaled decimal) =
      some (.ofDecimal negative decimal.digits decimal.exponent) := by
  have all : ∀ c ∈ natDigits decimal.digits, c.isDigit = true :=
    fun c member => isDigit_of_mem_natDigits member
  have inhabited := natDigits_ne_nil decimal.digits
  have value := digitsValue_natDigits decimal.digits
  have form := layout.laidOut_scaled decimal
  generalize layout.scaled decimal = text at form ⊢
  generalize natDigits decimal.digits = digits at all inhabited value form
  rw [← value] at nonzero ⊢
  cases form with
  | whole same =>
      rw [same]
      exact readLiteral?_zerosInFront negative nonzero inhabited all _
  | @inside count few same =>
      have read := readLiteral?_pointInside negative all count.succ_pos few.le isTail_nil
      have exponent : 0 - (digits.length : Int) + (count + 1 : Nat) = decimal.exponent := by omega
      rwa [exponent, List.append_nil] at read
  | behind same =>
      rw [same]
      exact readLiteral?_zerosBehind negative all _
  | single one => exact readLiteral?_noPoint negative inhabited all (isTail_exponent _ _)
  | power several =>
      have read := readLiteral?_pointInside negative all Nat.one_pos several.le
        (isTail_exponent layout.exponentPlus (digits.length + decimal.exponent - 1))
      have exponent : (digits.length + decimal.exponent - 1) - (digits.length : Int) + (1 : Nat) =
          decimal.exponent := by omega
      rwa [exponent] at read

end Layouts

section Finite

theorem magnitude_abs (x : Binary64) : x.abs.magnitude = x.magnitude :=
  magnitude_ofMagnitude (Nat.mod_lt _ (by decide))

theorem isFinite_abs (x : Binary64) : x.abs.isFinite = x.isFinite := by
  rw [isFinite, isFinite, exponentField, exponentField, magnitude_abs]

theorem isZero_abs (x : Binary64) : x.abs.isZero = x.isZero := by
  rw [isZero, isZero, magnitude_abs]

theorem isNegative_abs (x : Binary64) : x.abs.isNegative = false := by
  have small : x.magnitude < signBit := Nat.mod_lt _ (by decide)
  rw [signBit] at small
  simp only [isNegative, Binary64.abs, ofMagnitude, signBit, Bool.false_eq_true, if_false,
    UInt64.toNat_ofNat', decide_eq_false_iff_not]
  omega

theorem ofDecimal_zero (negative : Bool) (exponent : Int) :
    ofDecimal negative 0 exponent = .zero negative := by
  rw [ofDecimal, if_pos (Or.inl rfl)]

theorem zero_of_isZero {x : Binary64} (zero : x.isZero = true) :
    Binary64.zero x.isNegative = x := by
  have magnitude : x.magnitude = 0 := by simpa [isZero] using zero
  rw [Binary64.zero, ← magnitude, ofMagnitude_magnitude]

/-- A finite number is read back from its text in every layout. -/
theorem Layout.readLiteral?_finite (layout : Layout) {x : Binary64} (finite : x.isFinite = true) :
    readLiteral? (layout.finite x) = some x := by
  rw [Layout.finite]
  by_cases zero : x.isZero = true
  · have read := @readLiteral?_point ['0'] ['0'] [] 0 x.isNegative (by simp)
      (zeros_are_digits 1) (zeros_are_digits 1) isTail_nil
    have value : digitsValue (['0'] ++ ['0']) = 0 := digitsValue_zeros 2
    rw [value, ofDecimal_zero, zero_of_isZero zero] at read
    rw [if_pos zero]
    exact read
  · rw [if_neg zero]
    rw [Bool.not_eq_true] at zero
    obtain ⟨same, nonzero⟩ := toBinary64_shortest ((isFinite_abs x).trans finite)
      ((isZero_abs x).trans zero) (isNegative_abs x)
    rw [Scaled.toBinary64] at same
    have read := layout.readLiteral?_scaled x.isNegative nonzero
    rw [ofDecimal_eq_ofMagnitude, same, magnitude_abs, ofMagnitude_magnitude] at read
    exact read

end Finite

end ApiAssembly.Decimal
