/-!
# Binary floating-point numbers of 64 bits

A number is its word of 64 bits: a sign, eleven bits of exponent and 52 bits of
fraction.  All arithmetic is exact arithmetic on natural numbers followed by one
rounding, to the nearest representable number and to the even one of two that
are equally near.
-/

namespace ApiAssembly.Decimal

structure Binary64 where
  bits : UInt64
deriving DecidableEq

/-- The nearest natural number to a quotient, the even one of two equally near. -/
def roundQuotient (numerator denominator : Nat) : Nat :=
  let quotient := numerator / denominator
  let twice := 2 * (numerator % denominator)
  if denominator < twice ∨ (twice = denominator ∧ quotient % 2 = 1) then quotient + 1
  else quotient

namespace Binary64

def signBit : Nat := 0x8000000000000000

/-- The lowest bit above the fraction of a word, which is 2 to the power of 52. -/
def fractionLimit : Nat := 0x10000000000000

/-- The word without its sign bit, which orders the numbers by magnitude. -/
def magnitude (x : Binary64) : Nat :=
  x.bits.toNat % signBit

def isNegative (x : Binary64) : Bool :=
  signBit ≤ x.bits.toNat

def exponentField (x : Binary64) : Nat :=
  x.magnitude / fractionLimit

def fractionField (x : Binary64) : Nat :=
  x.magnitude % fractionLimit

def isFinite (x : Binary64) : Bool :=
  x.exponentField < 2047

def isZero (x : Binary64) : Bool :=
  x.magnitude = 0

def significand (x : Binary64) : Nat :=
  if x.exponentField = 0 then x.fractionField else fractionLimit + x.fractionField

/-- The exponent `q` of a finite number `m * 2 ^ q`. -/
def exponent (x : Binary64) : Int :=
  max x.exponentField 1 - 1075

/-- A finite number as a quotient of natural numbers, sign apart. -/
def ratio (x : Binary64) : Nat × Nat :=
  (x.significand * Nat.pow 2 x.exponent.toNat, Nat.pow 2 (-x.exponent).toNat)

/-- The number with the given sign and the given word below the sign bit. -/
def ofMagnitude (negative : Bool) (magnitude : Nat) : Binary64 :=
  ⟨UInt64.ofNat (if negative then signBit + magnitude else magnitude)⟩

def zero (negative : Bool) : Binary64 :=
  ofMagnitude negative 0

def infinity (negative : Bool) : Binary64 :=
  ofMagnitude negative (2047 * fractionLimit)

/-- The nearest number to a quotient.  The binary exponent is chosen so that the
quotient has 53 bits, or fewer where the exponents end; a significand rounded up to
54 bits carries into the exponent of itself, since the two fields are adjacent. -/
def ofRatio (negative : Bool) (numerator denominator : Nat) : Binary64 :=
  if numerator = 0 then zero negative
  else
    let estimate : Int := (numerator.log2 : Int) - denominator.log2 - 52
    let short : Bool :=
      numerator * Nat.pow 2 (-estimate).toNat <
        fractionLimit * denominator * Nat.pow 2 estimate.toNat
    let exponent : Int := max (if short then estimate - 1 else estimate) (-1074)
    let rounded :=
      roundQuotient (numerator * Nat.pow 2 (-exponent).toNat)
        (denominator * Nat.pow 2 exponent.toNat)
    let word := (exponent + 1074).toNat * fractionLimit + rounded
    if 2047 * fractionLimit ≤ word then infinity negative else ofMagnitude negative word

/-- The nearest number to `digits * 10 ^ exponent`.  Numbers that are far outside the
range are recognised by the position of their first digit. -/
def ofDecimal (negative : Bool) (digits : Nat) (exponent : Int) : Binary64 :=
  let position : Int := (Nat.toDigits 10 digits).length + exponent
  if digits = 0 ∨ position < -330 then zero negative
  else if 330 < position then infinity negative
  else ofRatio negative (digits * Nat.pow 10 exponent.toNat) (Nat.pow 10 (-exponent).toNat)

def mul (x y : Binary64) : Binary64 :=
  ofRatio (x.isNegative != y.isNegative) (x.ratio.1 * y.ratio.1) (x.ratio.2 * y.ratio.2)

/-- The quotient of two finite numbers, of which the second is not zero, rounded. -/
def div (x y : Binary64) : Binary64 :=
  ofRatio (x.isNegative != y.isNegative) (x.ratio.1 * y.ratio.2) (x.ratio.2 * y.ratio.1)

def neg (x : Binary64) : Binary64 :=
  ofMagnitude (!x.isNegative) x.magnitude

def abs (x : Binary64) : Binary64 :=
  ofMagnitude false x.magnitude

def isIntegral (x : Binary64) : Bool :=
  x.isFinite && x.ratio.1 % x.ratio.2 = 0

/-- The integer part of a finite number, rounded towards zero. -/
def toInt (x : Binary64) : Int :=
  let size : Int := ↑(x.ratio.1 / x.ratio.2)
  if x.isNegative then -size else size

/-- Equality of numbers: of equal words, and of the two zeros. -/
def same (x y : Binary64) : Bool :=
  x == y || (x.isZero && y.isZero)

@[simp] theorem same_refl (x : Binary64) : x.same x = true := by
  simp [same]

theorem same_comm (x y : Binary64) : x.same y = y.same x := by
  simp [same, Bool.beq_comm (a := x), Bool.and_comm]

end Binary64

end ApiAssembly.Decimal
