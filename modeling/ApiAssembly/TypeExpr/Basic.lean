import ApiAssembly.Decimal.Binary64

/-!
# Type expressions

The trees of the type expressions that stand between the braces of a documentation
tag.
-/

namespace ApiAssembly

open Decimal (Binary64)

inductive TypeExpr where
  /-- A type name, a boolean literal or the name of another type. -/
  | name (name : String)
  | number (value : Binary64)
  | string (value : String)
  /-- Alternatives, written with `|`. -/
  | union (left right : TypeExpr)
  /-- Both types at once, written with `&`. -/
  | intersection (left right : TypeExpr)
  | parenthesis (inner : TypeExpr)
  /-- The type `*`. -/
  | any
  /-- The type `?`. -/
  | unknown
  /-- A record with its entries in order. -/
  | record (entries : List (String × TypeExpr))
  /-- A generic type with its arguments, which `T[]` is too. -/
  | generic (subject : String) (objects : List TypeExpr)
  | nullable (inner : TypeExpr)
  | notNullable (inner : TypeExpr)
  | optional (inner : TypeExpr)
  | variadic (inner : TypeExpr)

namespace TypeExpr

def kindName : TypeExpr → String
  | .name _ => "NAME"
  | .number _ => "NUMBER_VALUE"
  | .string _ => "STRING_VALUE"
  | .union .. => "UNION"
  | .intersection .. => "INTERSECTION"
  | .parenthesis _ => "PARENTHESIS"
  | .any => "ANY"
  | .unknown => "UNKNOWN"
  | .record _ => "RECORD"
  | .generic .. => "GENERIC"
  | .nullable _ => "NULLABLE"
  | .notNullable _ => "NOT_NULLABLE"
  | .optional _ => "OPTIONAL"
  | .variadic _ => "VARIADIC"

def arrayOf (element : TypeExpr) : TypeExpr :=
  .generic "Array" [element]

end TypeExpr

end ApiAssembly
