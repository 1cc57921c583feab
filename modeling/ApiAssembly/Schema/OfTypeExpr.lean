import ApiAssembly.Schema.Basic
import ApiAssembly.TypeExpr.Parse

/-!
# Schemas of type expressions

The conversion of a type expression into the schema of its values.  Names of basic
types become types and all other names references; alternatives of literals of one
kind become an enumeration; what has no counterpart among schemas is an error.
-/

namespace ApiAssembly

open Decimal (Binary64)

inductive ConversionError where
  /-- The text is not a type expression. -/
  | text (error : TypeExpr.TextError)
  | unsupportedKind (kind : String)
  | unsupportedGeneric (subject : String)
deriving DecidableEq

def ConversionError.message : ConversionError → String
  | .text error => error.message
  | .unsupportedKind kind => "unsupported type kind " ++ kind
  | .unsupportedGeneric subject => "unsupported generic type " ++ subject

namespace Schema

/-- The names of types that a schema may have. -/
def basicTypes : List String :=
  ["null", "boolean", "object", "array", "number", "string", "integer"]

def booleanLiterals : List String :=
  ["true", "false"]

/-- A name with small ASCII letters for capital ones.  No other character has a small form
that occurs in the name of a basic type or of a boolean literal. -/
def lowerName (name : String) : String :=
  String.ofList (name.toList.map Char.toLower)

def ofName (name : String) : Schema :=
  let lower := lowerName name
  if booleanLiterals.contains lower then ofType "boolean"
  else if basicTypes.contains lower then ofType lower
  else referenceTo name

/-- The size from which on not every whole number is a floating-point number, which is 2 to
the power of 53. -/
def wholeLimit : Nat := 0x20000000000000

/-- The value of a number literal: whole if the number is and its size is below the
limit, and null if the number is not finite. -/
def literalValue (number : Binary64) : Value :=
  if number.isIntegral && number.toInt.natAbs < wholeLimit then .whole number.toInt
  else if number.isFinite then .number (.float number)
  else .null

def ofStrings (literals : List String) : Schema :=
  { typeName := some "string", enumeration := literals.map .string }

def ofNumbers (literals : List Binary64) : Schema :=
  { typeName := some (if literals.all Binary64.isIntegral then "integer" else "number"),
    enumeration := literals.map literalValue }

/-- The string literals of a chain of alternatives that holds nothing else. -/
def stringLiterals? : TypeExpr → Option (List String)
  | .string value => some [value]
  | .union (.string value) right => (stringLiterals? right).map (value :: ·)
  | _ => none

/-- The number literals of a chain of alternatives that holds nothing else. -/
def numberLiterals? : TypeExpr → Option (List Binary64)
  | .number value => some [value]
  | .union (.number value) right => (numberLiterals? right).map (value :: ·)
  | _ => none

/-- Whether a generic type is an array type, in whatever case its name is written. -/
def isArrayName (subject : String) : Bool :=
  lowerName subject = "array"

mutual

/-- The schema of a type expression. -/
def ofTypeExpr (expression : TypeExpr) : Except ConversionError Schema :=
  match expression with
  | .name name => .ok (ofName name)
  | .number value => .ok (ofNumbers [value])
  | .string value => .ok (ofStrings [value])
  | .union left right =>
    match stringLiterals? (.union left right), numberLiterals? (.union left right) with
    | some literals, _ => .ok (ofStrings literals)
    | none, some literals => .ok (ofNumbers literals)
    | none, none => do
      let first ← ofTypeExpr left
      let rest ← ofAlternatives right
      return { oneOf := first :: rest }
  | .intersection left right => do
    let first ← ofTypeExpr left
    let rest ← ofParts right
    return { typeName := some "object", allOf := first :: rest }
  | .parenthesis inner => ofTypeExpr inner
  | .any => .ok (ofType "\x7b\x7d")
  | .record entries => do
    let properties ← ofEntries [] entries
    return { typeName := some "object", properties := some properties }
  | .generic subject objects =>
    if isArrayName subject then
      match objects with
      | [] => .error (.unsupportedGeneric subject)
      | element :: _ => (ofTypeExpr element).map arrayOf
    else .error (.unsupportedGeneric subject)
  | .unknown | .nullable _ | .notNullable _ | .optional _ | .variadic _ =>
    .error (.unsupportedKind expression.kindName)
termination_by (sizeOf expression, 0)

/-- The schemas of a chain of alternatives. -/
def ofAlternatives (expression : TypeExpr) : Except ConversionError (List Schema) :=
  match expression with
  | .union left right => do
    let first ← ofTypeExpr left
    let rest ← ofAlternatives right
    return first :: rest
  | other => (ofTypeExpr other).map ([·])
termination_by (sizeOf expression, 1)

/-- The schemas of a chain of intersections. -/
def ofParts (expression : TypeExpr) : Except ConversionError (List Schema) :=
  match expression with
  | .intersection left right => do
    let first ← ofTypeExpr left
    let rest ← ofParts right
    return first :: rest
  | other => (ofTypeExpr other).map ([·])
termination_by (sizeOf expression, 1)

/-- The schemas of a record's entries, added to those before them.  Of entries with the
same key the last one counts, in the place of the first. -/
def ofEntries (properties : Entries Schema) (entries : List (String × TypeExpr)) :
    Except ConversionError (Entries Schema) :=
  match entries with
  | [] => .ok properties
  | (key, expression) :: rest => do
    let schema ← ofTypeExpr expression
    ofEntries (Entries.put key schema properties) rest
termination_by (sizeOf entries, 0)

end

def ofText (text : String) : Except ConversionError Schema :=
  match TypeExpr.parse text with
  | .error error => .error (.text error)
  | .ok expression => ofTypeExpr expression

end Schema

end ApiAssembly
