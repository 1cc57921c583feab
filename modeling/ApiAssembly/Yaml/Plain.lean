import ApiAssembly.Decimal.Literal
import ApiAssembly.Json.Reader
import ApiAssembly.Text.Search

/-!
# The types of plain scalars

Which null, boolean or number the text of a plain scalar stands for.  Whole numbers have
decimal digits without a leading zero, or digits of another base behind its mark; those
that 128 bits hold and 64 bits do not are refused rather than rounded.
-/

namespace ApiAssembly.Yaml

open Decimal (Binary64 digitsValue)

/-- What the text of a plain scalar stands for. -/
inductive Plain where
  | null
  | bool (value : Bool)
  | whole (value : Int)
  /-- A whole number that is too large to be one, but not large enough to be rounded. -/
  | excessive
  | float (value : Binary64)
  | text
deriving DecidableEq

def isNull (text : String) : Bool :=
  ["null", "Null", "NULL", "~"].contains text

def bool? (text : String) : Option Bool :=
  if ["true", "True", "TRUE"].contains text then some true
  else if ["false", "False", "FALSE"].contains text then some false
  else none

/-- Whether a text is a row of digits with a leading zero, which is no number. -/
def hasLeadingZero (text : List Char) : Bool :=
  match (Decimal.splitSign text).2 with
  | '0' :: d :: rest => (d :: rest).all Char.isDigit
  | _ => false

/-- The value of digits to a base of at most sixteen. -/
def valueIn? (base : Nat) (digits : List Char) : Option Nat :=
  if digits = [] then none
  else digits.foldlM (fun total c => do
    let digit ← Json.hexDigit? c
    if digit < base then some (total * base + digit) else none) 0

/-- The value of digits behind the mark of a base. -/
def basedValue? : List Char → Option Nat
  | '0' :: 'x' :: digits => valueIn? 16 digits
  | '0' :: 'o' :: digits => valueIn? 8 digits
  | '0' :: 'b' :: digits => valueIn? 2 digits
  | _ => none

def natural? (text : List Char) : Option Nat :=
  (basedValue? text).or (if hasLeadingZero text then none else valueIn? 10 text)

def whole? : List Char → Option Int
  | '-' :: digits => (natural? digits).map fun value => -(value : Int)
  | '+' :: digits => (natural? digits).map fun value => (value : Int)
  | digits => (natural? digits).map fun value => (value : Int)

def isInfinity (text : String) : Bool :=
  [".inf", ".Inf", ".INF"].contains text

/-- The floating-point number that is none, in its usual form. -/
def notANumber : Binary64 := ⟨0x7FF8000000000000⟩

/-- The floating-point number that a text spells.  A literal out of range spells none. -/
def float? (text : String) : Option Binary64 :=
  let chars := text.toList
  let (negative, unsigned) := Decimal.splitSign chars
  if isInfinity (String.ofList unsigned) then some (.infinity negative)
  else if [".nan", ".NaN", ".NAN"].contains text then some notANumber
  else
    match Decimal.readLiteral? chars with
    | some value => if value.isFinite then some value else none
    | none => none

/-- Where a whole number is held: in 64 bits with or without sign, or in 128 bits. -/
def classify (value : Int) : Option Plain :=
  if -0x8000000000000000 ≤ value ∧ value ≤ 0xFFFFFFFFFFFFFFFF then some (.whole value)
  else if -0x80000000000000000000000000000000 ≤ value ∧
      value ≤ 0xFFFFFFFFFFFFFFFFFFFFFFFFFFFFFFFF then some .excessive
  else none

def plainOf (text : String) : Plain :=
  if text = "" ∨ isNull text then .null
  else match bool? text with
    | some value => .bool value
    | none =>
      match (whole? text.toList).bind classify with
      | some plain => plain
      | none =>
        if hasLeadingZero text.toList then .text
        else match float? text with
          | some value => .float value
          | none => .text

end ApiAssembly.Yaml
