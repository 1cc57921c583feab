import ApiAssembly.Value.Basic

/-!
# Equality of values

Two values are the same when they have the same kind and content.  The order of an
object's members does not count, the order of an array's items does, and the two
floating-point zeros are the same number.
-/

namespace ApiAssembly

/-- Equality of numbers of one kind; the two floating-point zeros are equal. -/
def Number.same : Number → Number → Bool
  | .whole left, .whole right => left = right
  | .float left, .float right => left.same right
  | _, _ => false

mutual

/-- Equality of values up to the order of members. -/
def Value.same : Value → Value → Bool
  | .null, .null => true
  | .bool left, .bool right => left = right
  | .number left, .number right => left.same right
  | .string left, .string right => left = right
  | .array left, .array right => Value.sameItems left right
  | .object left, .object right =>
    left.length = right.length && Value.sameMembers left right
  | _, _ => false

def Value.sameItems : List Value → List Value → Bool
  | [], [] => true
  | left :: lefts, right :: rights => Value.same left right && Value.sameItems lefts rights
  | _, _ => false

/-- Whether each of the members on the left is on the right with the same value. -/
def Value.sameMembers : List (String × Value) → List (String × Value) → Bool
  | [], _ => true
  | (key, left) :: lefts, rights =>
    (match Entries.get? key rights with
      | some right => Value.same left right
      | none => false) && Value.sameMembers lefts rights

end

@[simp] theorem Number.same_refl (number : Number) : number.same number = true := by
  cases number <;> simp [Number.same]

end ApiAssembly
