import ApiAssembly.Decimal.Binary64
import ApiAssembly.Entries

/-!
# Values

The values that documents are made of: the values of JSON, with the members of an
object in order and with whole numbers apart from binary floating-point numbers.
-/

namespace ApiAssembly

open Decimal (Binary64)

/-- A number of a document.  A whole number and a floating-point number are different
numbers even when they have the same size. -/
inductive Number where
  | whole (value : Int)
  | float (value : Binary64)
deriving DecidableEq

inductive Value where
  | null
  | bool (value : Bool)
  | number (value : Number)
  | string (value : String)
  | array (items : List Value)
  | object (members : List (String × Value))

instance : Inhabited Value := ⟨.null⟩

abbrev Members := Entries Value

inductive ValueKind where
  | null | boolean | number | string | sequence | mapping
deriving DecidableEq

def ValueKind.name : ValueKind → String
  | .null => "null"
  | .boolean => "boolean"
  | .number => "number"
  | .string => "string"
  | .sequence => "sequence"
  | .mapping => "mapping"

namespace Value

def kind : Value → ValueKind
  | .null => .null
  | .bool _ => .boolean
  | .number _ => .number
  | .string _ => .string
  | .array _ => .sequence
  | .object _ => .mapping

def whole (value : Int) : Value :=
  .number (.whole value)

def string? : Value → Option String
  | .string text => some text
  | _ => none

def object? : Value → Option Members
  | .object members => some members
  | _ => none

def member? (key : String) (value : Value) : Option Value :=
  value.object?.bind (Entries.get? key)

theorem string?_eq_some_iff {value : Value} {text : String} :
    value.string? = some text ↔ value = .string text := by
  cases value <;> simp [string?]

@[simp] theorem object?_object (members : Members) : (object members).object? = some members :=
  rfl

@[simp] theorem member?_object (key : String) (members : Members) :
    (object members).member? key = Entries.get? key members := rfl

end Value

end ApiAssembly
