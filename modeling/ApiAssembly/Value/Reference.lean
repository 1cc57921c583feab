import ApiAssembly.Text.Search
import ApiAssembly.Value.Basic

/-!
# References to schemas

The values under a key anywhere in a value, and the names of the schemas that a
value refers to through its members named `$ref`.
-/

namespace ApiAssembly

namespace Value

mutual

/-- The values under a key anywhere in a value, in the order of the document.  What
stands under the key is not searched again. -/
def keyed (key : String) : Value → List Value
  | .array items => keyedItems key items
  | .object members => keyedMembers key members
  | _ => []

def keyedItems (key : String) : List Value → List Value
  | [] => []
  | item :: rest => keyed key item ++ keyedItems key rest

def keyedMembers (key : String) : List (String × Value) → List Value
  | [] => []
  | (name, value) :: rest =>
    (if name = key then [value] else keyed key value) ++ keyedMembers key rest

end

end Value

/-- The text before the name in a reference to a schema of the same document. -/
def referenceBase : String := "#/components/schemas/"

/-- The schema that a reference names, if the text is a reference with a name. -/
def referencedName? (reference : String) : Option String :=
  match Text.after? referenceBase.toList reference.toList with
  | some (c :: name) => some (String.ofList (c :: name))
  | _ => none

/-- The names of the schemas that a value refers to, each once, in the order of the
first reference. -/
def Value.schemaReferences (value : Value) : List String :=
  ((value.keyed "$ref").filterMap fun target => target.string?.bind referencedName?).foldl
    (fun names name => if names.contains name then names else names ++ [name]) []

end ApiAssembly
