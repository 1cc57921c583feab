import ApiAssembly.Proofs.Decimal.Finite

/-!
# The rational numbers of words

A finite word stands for a rational number.  The test for whole numbers and the conversion to
them compute with a quotient of natural numbers; here they are compared with the number that
the sign, the significand and the exponent give.
-/

namespace ApiAssembly.Decimal.Binary64

variable {x : Binary64}

/-- The number of a word from its sign bit, its field of eleven bits for the exponent and its
fraction of 52 bits.  The infinities and the words that are no numbers, whose field is full, have
none. -/
def rational? (x : Binary64) : Option ℚ :=
  let field : ℕ := x.bits.toNat / 2 ^ 52 % 2 ^ 11
  let fraction : ℕ := x.bits.toNat % 2 ^ 52
  if field = 2047 then none
  else
    let significand : ℕ := if field = 0 then fraction else 2 ^ 52 + fraction
    let size : ℚ := significand * 2 ^ (((max field 1 : ℕ) : ℤ) - 1075)
    some (if 2 ^ 63 ≤ x.bits.toNat then -size else size)

theorem exponentField_eq (x : Binary64) : x.exponentField = x.bits.toNat / 2 ^ 52 % 2 ^ 11 :=
  Nat.mod_mul_right_div_self x.bits.toNat (2 ^ 52) (2 ^ 11)

theorem fractionField_eq (x : Binary64) : x.fractionField = x.bits.toNat % 2 ^ 52 :=
  Nat.mod_mod_of_dvd x.bits.toNat (by decide : 2 ^ 52 ∣ 2 ^ 63)

theorem isFinite_iff : x.isFinite = true ↔ x.exponentField ≠ 2047 := by
  have bounded : x.exponentField < 2 ^ 11 := by
    rw [exponentField_eq]
    exact Nat.mod_lt _ (by decide)
  rw [isFinite, decide_eq_true_eq]
  omega

theorem rational?_eq_none_iff : x.rational? = none ↔ x.isFinite = false := by
  rw [← Bool.not_eq_true, isFinite_iff, exponentField_eq, not_not]
  simp [rational?]

/-- The number of a finite word from its sign, its significand and its exponent. -/
theorem rational?_eq_some (finite : x.isFinite = true) :
    x.rational? =
      let size : ℚ := x.significand * 2 ^ x.exponent
      some (if x.isNegative then -size else size) := by
  have field := isFinite_iff.mp finite
  rw [exponentField_eq] at field
  have limit : fractionLimit = 2 ^ 52 := by decide
  have negative : x.isNegative = true ↔ 2 ^ 63 ≤ x.bits.toNat := decide_eq_true_iff
  simp only [rational?, if_neg field, significand, exponent, exponentField_eq, fractionField_eq,
    limit, negative]

theorem rational?_of_isFinite (finite : x.isFinite = true) :
    x.rational? = some (if x.isNegative then -quotient x.ratio.1 x.ratio.2
      else quotient x.ratio.1 x.ratio.2) := by
  rw [rational?_eq_some finite, quotient_ratio]

/-- A number without a fraction is the quotient rounded towards zero. -/
theorem rational?_of_isIntegral (integral : x.isIntegral = true) :
    x.rational? = some (x.toInt : ℚ) := by
  rw [isIntegral, Bool.and_eq_true, decide_eq_true_eq] at integral
  obtain ⟨size, product⟩ := Nat.dvd_of_mod_eq_zero integral.2
  have nonzero : (x.ratio.2 : ℚ) ≠ 0 := by exact_mod_cast x.ratio_positive.ne'
  have whole : x.ratio.1 / x.ratio.2 = size := by
    rw [product, Nat.mul_div_cancel_left _ x.ratio_positive]
  have equal : quotient x.ratio.1 x.ratio.2 = size := by
    rw [quotient, product, Nat.cast_mul, mul_div_cancel_left₀ _ nonzero]
  rw [rational?_of_isFinite integral.1, equal, toInt, whole]
  cases x.isNegative <;> simp

theorem isIntegral_of_rational? {whole : Int} (same : x.rational? = some (whole : ℚ)) :
    x.isIntegral = true := by
  have finite : x.isFinite = true := by
    cases finite : x.isFinite with
    | true => rfl
    | false => rw [rational?_eq_none_iff.mpr finite] at same; cases same
  have positive : (0 : ℚ) < x.ratio.2 := by exact_mod_cast x.ratio_positive
  have size : quotient x.ratio.1 x.ratio.2 = (whole.natAbs : ℚ) := by
    have nonneg : 0 ≤ quotient x.ratio.1 x.ratio.2 := by
      rw [quotient]
      positivity
    rw [rational?_of_isFinite finite, Option.some.injEq] at same
    rw [Nat.cast_natAbs, Int.cast_abs, ← same]
    split
    · rw [abs_neg, abs_of_nonneg nonneg]
    · rw [abs_of_nonneg nonneg]
  have product : x.ratio.1 = whole.natAbs * x.ratio.2 := by
    rw [quotient, div_eq_iff positive.ne'] at size
    exact_mod_cast size
  rw [isIntegral, finite, product, Nat.mul_mod_left]
  rfl

theorem isIntegral_iff : x.isIntegral = true ↔ ∃ whole : Int, x.rational? = some (whole : ℚ) :=
  ⟨fun integral => ⟨x.toInt, rational?_of_isIntegral integral⟩,
    fun ⟨_, same⟩ => isIntegral_of_rational? same⟩

end ApiAssembly.Decimal.Binary64
