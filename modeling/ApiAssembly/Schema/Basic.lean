import ApiAssembly.Value.Reference

/-!
# Schemas

A schema describes the values that a place in an API may hold.  Keywords that were
not set are absent from the schema's value, in which the set keywords stand in a
fixed order and the further keywords at the end.
-/

namespace ApiAssembly

/-- The schemas of an array's items. -/
inductive Items (α : Type) where
  | absent
  | each (schema : α)
  /-- Every place has a schema of its own. -/
  | tuple (schemas : List α)

/-- A schema.  Lists that are empty are absent, apart from the properties. -/
structure Schema where
  typeName : Option String := none
  reference : Option String := none
  title : Option String := none
  description : Option String := none
  enumeration : List Value := []
  oneOf : List Schema := []
  allOf : List Schema := []
  items : Items Schema := .absent
  minItems : Option Nat := none
  maxItems : Option Nat := none
  properties : Option (List (String × Schema)) := none
  required : List String := []
  nullable : Bool := false
  defaultValue : Option Value := none
  extensions : List (String × String) := []

namespace Schema

def ofType (name : String) : Schema :=
  { typeName := some name }

def referenceTo (name : String) : Schema :=
  { reference := some (referenceBase ++ name) }

def arrayOf (element : Schema) : Schema :=
  { typeName := some "array", items := .each element }

def isArray (schema : Schema) : Bool :=
  schema.typeName = some "array"

/-- A keyword with its value, if there is one. -/
def keyword (key : String) (value : Option Value) : Members :=
  match value with
  | some value => [(key, value)]
  | none => []

/-- A keyword with a list as its value, unless the list is empty. -/
def listKeyword (key : String) (items : List Value) : Members :=
  if items.isEmpty then [] else [(key, .array items)]

mutual

/-- The value of a schema.  A further keyword replaces the value of a keyword that is
set. -/
def toValue : Schema → Value
  | ⟨typeName, reference, title, description, enumeration, oneOf, allOf, items, minItems,
      maxItems, properties, required, nullable, defaultValue, extensions⟩ =>
    let fixed : Members :=
      keyword "type" (typeName.map .string) ++
      keyword "$ref" (reference.map .string) ++
      keyword "title" (title.map .string) ++
      keyword "description" (description.map .string) ++
      listKeyword "enum" enumeration ++
      listKeyword "oneOf" (toValues oneOf) ++
      listKeyword "allOf" (toValues allOf) ++
      keyword "items" (itemsValue items) ++
      keyword "minItems" (minItems.map fun count => .whole count) ++
      keyword "maxItems" (maxItems.map fun count => .whole count) ++
      keyword "properties" (propertiesValue properties) ++
      listKeyword "required" (required.map .string) ++
      keyword "nullable" (if nullable then some (.bool true) else none) ++
      keyword "default" defaultValue
    .object (extensions.foldl (fun members extension =>
      Entries.put extension.1 (.string extension.2) members) fixed)

def toValues : List Schema → List Value
  | [] => []
  | schema :: rest => toValue schema :: toValues rest

def itemsValue : Items Schema → Option Value
  | .absent => none
  | .each schema => some (toValue schema)
  | .tuple schemas => some (.array (toValues schemas))

def propertiesValue : Option (List (String × Schema)) → Option Value
  | none => none
  | some properties => some (.object (propertyMembers properties))

def propertyMembers : List (String × Schema) → List (String × Value)
  | [] => []
  | (name, schema) :: rest => (name, toValue schema) :: propertyMembers rest

end

end Schema

end ApiAssembly
