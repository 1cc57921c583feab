import ApiAssembly.Value.Equality

/-!
# Merging objects

Objects are merged one into another.  A member that is present already decides how a
later one of its key is taken: an array collects the later items that it lacks, an
object is merged in turn, and every other value stays.
-/

namespace ApiAssembly

namespace Value

/-- An array's items followed by the incoming items that equal no item before them. -/
def collect (items incoming : List Value) : List Value :=
  incoming.foldl
    (fun collected item =>
      if collected.any (fun present => present.same item) then collected
      else collected ++ [item])
    items

mutual

/-- What becomes of a present value when another value comes for the same key. -/
def combine (present : Value) : Value → Value
  | .array incoming =>
    match present with
    | .array items => .array (collect items incoming)
    | other => other
  | .object incoming =>
    match present with
    | .array items => .array (collect items [.object incoming])
    | .object members => .object (mergeMembers members incoming)
    | other => other
  | incoming =>
    match present with
    | .array items => .array (collect items [incoming])
    | other => other

/-- Merge the members of a source into a target, one after the other. -/
def mergeMembers (target : List (String × Value)) :
    List (String × Value) → List (String × Value)
  | [] => target
  | (key, incoming) :: rest =>
    match Entries.get? key target with
    | none => mergeMembers (Entries.put key incoming target) rest
    | some present => mergeMembers (Entries.put key (combine present incoming) target) rest

end

/-- The target after each source of a list has been merged into it, in order. -/
def mergeAll (target : Members) (sources : List Members) : Members :=
  sources.foldl mergeMembers target

@[simp] theorem collect_nil (items : List Value) : collect items [] = items := rfl

@[simp] theorem mergeAll_nil (target : Members) : mergeAll target [] = target := rfl

end Value

end ApiAssembly
