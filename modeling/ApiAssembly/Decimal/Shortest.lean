import ApiAssembly.Decimal.Binary64

/-!
# The fewest digits that read back

A finite number is written with the fewest decimal digits that read back as the
same number, and with the nearest of those where several have the fewest.  The
module finds the digits; a layout says how they are set out.  The statement is
that what the search accepts does read back.
-/

namespace ApiAssembly.Decimal

/-- A decimal `digits * 10 ^ exponent`. -/
structure Scaled where
  digits : Nat
  exponent : Int
deriving DecidableEq

namespace Scaled

def toBinary64 (decimal : Scaled) : Binary64 :=
  Binary64.ofDecimal false decimal.digits decimal.exponent

/-- The same decimal without zeros at the end of its digits; the first argument bounds
the number of zeros that are looked for. -/
def dropZeros : Nat → Scaled → Scaled
  | 0, decimal => decimal
  | count + 1, decimal =>
    if decimal.digits ≠ 0 ∧ decimal.digits % 10 = 0 then
      dropZeros count ⟨decimal.digits / 10, decimal.exponent + 1⟩
    else decimal

end Scaled

/-- The digits in front of the decimal point of a positive number, counted; below one
tenth the count is negative. -/
def decimalPosition (x : Binary64) : Int :=
  let shifted := x.ratio.1 * Nat.pow 10 330 / x.ratio.2
  (Nat.toDigits 10 shifted).length - 330

/-- Of two decimals that read back as `x`, the nearer one, and of two equally near ones
the one with an even last digit. -/
def nearer (x : Binary64) (lower upper : Scaled) : Scaled :=
  let value := x.ratio.1 * Nat.pow 10 (-lower.exponent).toNat
  let unit := x.ratio.2 * Nat.pow 10 lower.exponent.toNat
  let twice := 2 * (value % unit)
  if unit < twice ∨ (twice = unit ∧ lower.digits % 2 = 1) then upper else lower

/-- Of two neighbouring decimals, one that reads back as `x`. -/
def choose? (x : Binary64) (lower upper : Scaled) : Option Scaled :=
  match lower.toBinary64 == x, upper.toBinary64 == x with
  | true, true => some (nearer x lower upper)
  | true, false => some lower
  | false, true => some upper
  | false, false => none

/-- The decimal of the given number of digits that reads back as `x`, if there is one: if
any is in reach, one of the two neighbours of `x` on the grid of that many digits is. -/
def readingBack? (x : Binary64) (count : Nat) : Option Scaled :=
  let exponent := decimalPosition x - count
  let floor :=
    x.ratio.1 * Nat.pow 10 (-exponent).toNat / (x.ratio.2 * Nat.pow 10 exponent.toNat)
  choose? x ⟨floor, exponent⟩ ⟨floor + 1, exponent⟩

/-- The shortest decimal that reads back as a positive finite number.  Seventeen digits
are enough for every number; the exact decimal stands behind them. -/
def shortest (x : Binary64) : Scaled :=
  let found := (List.range 17).findSome? fun count => readingBack? x (count + 1)
  let exact : Scaled :=
    ⟨x.significand * Nat.pow 2 x.exponent.toNat * Nat.pow 5 (-x.exponent).toNat,
      min x.exponent 0⟩
  (found.getD exact).dropZeros 400

theorem nearer_eq_or (x : Binary64) (lower upper : Scaled) :
    nearer x lower upper = lower ∨ nearer x lower upper = upper := by
  unfold nearer
  dsimp only
  split
  · exact .inr rfl
  · exact .inl rfl

theorem toBinary64_of_choose? {x : Binary64} {lower upper decimal : Scaled}
    (found : choose? x lower upper = some decimal) : decimal.toBinary64 = x := by
  unfold choose? at found
  split at found
  case h_1 low high =>
    cases found
    rcases nearer_eq_or x lower upper with same | same
    · rw [same]; exact eq_of_beq low
    · rw [same]; exact eq_of_beq high
  case h_2 low high => cases found; exact eq_of_beq low
  case h_3 low high => cases found; exact eq_of_beq high
  case h_4 => cases found

theorem toBinary64_of_readingBack? {x : Binary64} {count : Nat} {decimal : Scaled}
    (found : readingBack? x count = some decimal) : decimal.toBinary64 = x :=
  toBinary64_of_choose? found

structure Layout where
  /-- Positional notation begins at this power of ten of the first digit. -/
  positionalFrom : Int
  /-- Positional notation ends below this power of ten of the first digit. -/
  positionalBelow : Int
  /-- Whether a positive exponent is written with its sign. -/
  exponentPlus : Bool

def natDigits (n : Nat) : List Char :=
  Nat.toDigits 10 n

def intDigits (n : Int) : List Char :=
  if n < 0 then '-' :: natDigits n.natAbs else natDigits n.natAbs

/-- A positive decimal in a layout.  A positional text always has a point. -/
def Layout.scaled (layout : Layout) (decimal : Scaled) : List Char :=
  let digits := natDigits decimal.digits
  let first : Int := digits.length + decimal.exponent - 1
  if layout.positionalFrom ≤ first ∧ first < layout.positionalBelow then
    if 0 ≤ decimal.exponent then
      digits ++ List.replicate decimal.exponent.toNat '0' ++ ['.', '0']
    else if 0 ≤ first then
      digits.take (first + 1).toNat ++ '.' :: digits.drop (first + 1).toNat
    else
      '0' :: '.' :: List.replicate (-first - 1).toNat '0' ++ digits
  else
    let fraction := if digits.length = 1 then [] else '.' :: digits.drop 1
    let plus := if layout.exponentPlus ∧ 0 ≤ first then ['+'] else []
    digits.take 1 ++ fraction ++ 'e' :: plus ++ intDigits first

/-- A finite number in a layout, with the fewest digits that read back. -/
def Layout.finite (layout : Layout) (x : Binary64) : List Char :=
  let sign := if x.isNegative then ['-'] else []
  sign ++ if x.isZero then ['0', '.', '0'] else layout.scaled (shortest x.abs)

end ApiAssembly.Decimal
