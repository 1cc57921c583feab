import ApiAssembly.Decimal.Literal
import ApiAssembly.Value.Basic

/-!
# Numbers in JSON texts

A JSON number without fraction and exponent is a whole number where 64 bits hold it.
Every other number is a floating-point number found in two roundings: the leading
digits that 64 bits hold are rounded first, and the result is multiplied or divided
by a rounded power of ten.
-/

namespace ApiAssembly.Json

open Decimal (Binary64 digitsValue)

def largestWord : Nat := 0xFFFFFFFFFFFFFFFF

/-- The size of the smallest whole number that 64 bits with a sign hold. -/
def largestNegated : Nat := 0x8000000000000000

/-- Append digits to a significand for as long as 64 bits hold it; the count is that of the
digits left over. -/
def gather (significand : Nat) : List Char → Nat × Nat
  | [] => (significand, 0)
  | digit :: rest =>
    let next := 10 * significand + digitsValue [digit]
    if largestWord < next then (significand, rest.length + 1) else gather next rest

/-- Scale a number by a power of ten, in steps of at most 308 places.  The first argument
bounds the steps: three of them exhaust the range of the numbers.  There is no result when
it is too large. -/
def scaleByTen : Nat → Binary64 → Int → Option Binary64
  | 0, _, _ => some (.zero false)
  | steps + 1, x, exponent =>
    if x.isZero then some x
    else if 0 ≤ exponent then
      if 308 < exponent then none
      else
        let scaled := x.mul (.ofDecimal false 1 exponent)
        if scaled.isFinite then some scaled else none
    else if -308 ≤ exponent then some (x.div (.ofDecimal false 1 (-exponent)))
    else scaleByTen steps (x.div (.ofDecimal false 1 308)) (exponent + 308)

/-- The floating-point number of a significand and a power of ten. -/
def floatOf? (negative : Bool) (significand : Nat) (exponent : Int) : Option Number :=
  (scaleByTen 3 (.ofDecimal false significand 0) exponent).map fun x =>
    .float (if negative then x.neg else x)

/-- The number without fraction and exponent: whole where a signed or unsigned word holds
it, and otherwise floating-point, as is a zero behind a minus. -/
def wholeOf? (negative : Bool) (digits : List Char) : Option Number :=
  let value := digitsValue digits
  if negative then
    if value = 0 then some (.float (.zero true))
    else if value ≤ largestNegated then some (.whole (-value))
    else
      let (significand, left) := gather 0 digits
      floatOf? true significand left
  else if value ≤ largestWord then some (.whole value)
  else
    let (significand, left) := gather 0 digits
    floatOf? false significand left

/-- The fraction of a number: its digits, at least one of them, and what follows. -/
def splitFraction? : List Char → Option (List Char × List Char)
  | '.' :: rest =>
    match rest.span Char.isDigit with
    | ([], _) => none
    | split => some split
  | text => some ([], text)

/-- The exponent of a number, if there is one, and what follows. -/
def splitExponent? : List Char → Option (Option Int × List Char)
  | [] => some (none, [])
  | mark :: rest =>
    if mark = 'e' ∨ mark = 'E' then
      let (negative, unsigned) := Decimal.splitSign rest
      match unsigned.span Char.isDigit with
      | ([], _) => none
      | (digits, after) =>
        let size : Int := ↑(digitsValue digits)
        some (some (if negative then -size else size), after)
    else some (none, mark :: rest)

/-- Read a number behind its sign; the whole part has no zero in front of other digits. -/
def readUnsigned? (negative : Bool) (text : List Char) : Option (Number × List Char) :=
  let (digits, afterWhole) := text.span Char.isDigit
  if digits = [] ∨ (digits.head? = some '0' ∧ digits.length ≠ 1) then none
  else do
    let (fraction, afterFraction) ← splitFraction? afterWhole
    let (exponent, rest) ← splitExponent? afterFraction
    if fraction = [] ∧ exponent = none then
      return (← wholeOf? negative digits, rest)
    else
      let (whole, wholeLeft) := gather 0 digits
      let (significand, fractionLeft) := gather whole fraction
      let places : Int := (wholeLeft : Int) - (fraction.length - fractionLeft : Nat)
      return (← floatOf? negative significand (places + exponent.getD 0), rest)

/-- Read a number, and return what follows it. -/
def readNumber? : List Char → Option (Number × List Char)
  | '-' :: rest => readUnsigned? true rest
  | text => readUnsigned? false text

end ApiAssembly.Json
