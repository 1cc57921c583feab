import ApiAssembly.Decimal.Binary64

/-!
# Decimal literals

A decimal literal is an optional sign, digits with at most one point among or
around them, and an optional exponent.  It denotes the nearest binary number,
which is infinite for a literal out of range.
-/

namespace ApiAssembly.Decimal

/-- The number that a row of decimal digits denotes. -/
def digitsValue (digits : List Char) : Nat :=
  digits.foldl (fun total digit => 10 * total + (digit.toNat - '0'.toNat)) 0

/-- The sign in front of a literal, `true` for a minus, and what follows it. -/
def splitSign : List Char → Bool × List Char
  | '-' :: rest => (true, rest)
  | '+' :: rest => (false, rest)
  | text => (false, text)

/-- The exponent at the end of a literal, which is zero when nothing is left. -/
def readExponent? : List Char → Option Int
  | [] => some 0
  | mark :: rest =>
    let (negative, digits) := splitSign rest
    if (mark = 'e' ∨ mark = 'E') ∧ digits ≠ [] ∧ digits.all Char.isDigit then
      some (if negative then -(digitsValue digits : Int) else digitsValue digits)
    else none

/-- The digits behind the point of a literal, if there is a point, and what follows. -/
def splitFraction : List Char → List Char × List Char
  | '.' :: rest => rest.span Char.isDigit
  | text => ([], text)

/-- The nearest number to a decimal literal, if the text is one. -/
def readLiteral? (text : List Char) : Option Binary64 :=
  let (negative, unsigned) := splitSign text
  let (whole, afterWhole) := unsigned.span Char.isDigit
  let (fraction, afterFraction) := splitFraction afterWhole
  if whole = [] ∧ fraction = [] then none
  else (readExponent? afterFraction).map fun exponent =>
    Binary64.ofDecimal negative (digitsValue (whole ++ fraction)) (exponent - fraction.length)

@[simp] theorem digitsValue_nil : digitsValue [] = 0 := rfl

@[simp] theorem readExponent?_nil : readExponent? [] = some 0 := rfl

end ApiAssembly.Decimal
