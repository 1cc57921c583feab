import ApiAssembly.Proofs.Entries
import ApiAssembly.Typedef.OfComment

/-!
# Parts of schemas

A schema with parts of its own is described by the schema alone and by the list of its
parts.  Below an array every part is an item; elsewhere the parts are properties, laid
over those that the schema had.  The statements say that attaching a further part, going
to a part and replacing a part do to the schema what they do to the list.
-/

namespace ApiAssembly

open Typedef (attachItem attachProperty)

/-- A part of a schema, with the name that it has there. -/
structure Part where
  leaf : String
  optional : Bool
  schema : Schema

namespace Part

def entry (part : Part) : String × Schema :=
  (part.leaf, part.schema)

/-- The parts that every value has. -/
def mandatory (parts : List Part) : List Part :=
  parts.filter fun part => !part.optional

theorem keys_entries (parts : List Part) :
    Entries.keys (parts.map entry) = parts.map leaf := by
  simp [Entries.keys, entry]

theorem mandatory_concat (parts : List Part) (part : Part) :
    mandatory (parts ++ [part]) =
      if part.optional then mandatory parts else mandatory parts ++ [part] := by
  cases optional : part.optional <;> simp [mandatory, optional]

end Part

namespace Schema

theorem isArray_iff {schema : Schema} :
    schema.isArray = true ↔ schema.typeName = some "array" := by
  simp [isArray]

theorem isArray_eq_false_iff {schema : Schema} :
    schema.isArray = false ↔ schema.typeName ≠ some "array" := by
  simp [isArray]

/-- A schema with parts: the items of an array, and the properties of anything else. -/
def withParts (own : Schema) (parts : List Part) : Schema :=
  if parts.isEmpty then own
  else if own.typeName = some "array" then
    { own with
      items := .tuple (parts.map Part.schema)
      minItems :=
        let count := (Part.mandatory parts).length
        if count = 0 then none else some count
      maxItems := some parts.length }
  else
    { own with
      properties := some (Entries.overlay (own.properties.getD []) (parts.map Part.entry))
      required := (Part.mandatory parts).map Part.leaf }

def withExtensions (schema : Schema) (extensions : Entries String) : Schema :=
  { schema with extensions }

/-- The step to a part from the number of the parts in front of it and from its name. -/
def stepTo (own : Schema) (index : Nat) (leaf : String) : Step :=
  if own.typeName = some "array" then .item index else .property leaf

/-- What is true of a schema before any part is attached to it. -/
structure Undivided (schema : Schema) : Prop where
  items_ne_tuple : ∀ items, schema.items ≠ .tuple items
  minItems_eq : schema.minItems = none
  required_eq : schema.required = []
  extensions_eq : schema.extensions = []
  distinct : (Entries.keys (schema.properties.getD [])).Nodup

@[simp] theorem withParts_nil (own : Schema) : own.withParts [] = own := rfl

@[simp] theorem isArray_withExtensions (schema : Schema) (extensions : Entries String) :
    (schema.withExtensions extensions).isArray = schema.isArray := rfl

@[simp] theorem items_withExtensions (schema : Schema) (extensions : Entries String) :
    (schema.withExtensions extensions).items = schema.items := rfl

@[simp] theorem part?_withExtensions (schema : Schema) (extensions : Entries String)
    (step : Step) : (schema.withExtensions extensions).part? step = schema.part? step := by
  cases step <;> rfl

@[simp] theorem withPart_withExtensions (schema : Schema) (extensions : Entries String)
    (step : Step) (part : Schema) :
    (schema.withExtensions extensions).withPart step part =
      (schema.withPart step part).withExtensions extensions := by
  cases step with
  | property name => rfl
  | item index =>
      rw [withPart, withPart, items_withExtensions]
      split <;> rfl

@[simp] theorem isArray_withParts (own : Schema) (parts : List Part) :
    (own.withParts parts).isArray = own.isArray := by
  unfold withParts
  split
  · rfl
  · split <;> rfl

theorem withParts_of_isArray {own : Schema} (array : own.isArray = true) {parts : List Part}
    (inhabited : parts ≠ []) :
    own.withParts parts =
      { own with
        items := .tuple (parts.map Part.schema)
        minItems :=
          if (Part.mandatory parts).length = 0 then none
          else some (Part.mandatory parts).length
        maxItems := some parts.length } := by
  rw [withParts, if_neg (by simpa using inhabited), if_pos (isArray_iff.mp array)]

theorem withParts_of_not_isArray {own : Schema} (noArray : own.isArray = false)
    {parts : List Part} (inhabited : parts ≠ []) :
    own.withParts parts =
      { own with
        properties := some (Entries.overlay (own.properties.getD []) (parts.map Part.entry))
        required := (Part.mandatory parts).map Part.leaf } := by
  rw [withParts, if_neg (by simpa using inhabited), if_neg (isArray_eq_false_iff.mp noArray)]

/-- The number of items that every value has, unless there are none. -/
theorem minItems_withParts {own : Schema} (undivided : own.Undivided)
    (array : own.isArray = true) (parts : List Part) :
    (own.withParts parts).minItems =
      if (Part.mandatory parts).length = 0 then none
      else some (Part.mandatory parts).length := by
  cases parts with
  | nil => exact undivided.minItems_eq
  | cons first rest => rw [withParts_of_isArray array (by simp)]

theorem required_withParts {own : Schema} (undivided : own.Undivided)
    (noArray : own.isArray = false) (parts : List Part) :
    (own.withParts parts).required = (Part.mandatory parts).map Part.leaf := by
  cases parts with
  | nil => exact undivided.required_eq
  | cons first rest => rw [withParts_of_not_isArray noArray (by simp)]

theorem properties_withParts {own : Schema} (noArray : own.isArray = false)
    (parts : List Part) :
    (own.withParts parts).properties.getD [] =
      Entries.overlay (own.properties.getD []) (parts.map Part.entry) := by
  cases parts with
  | nil => simp
  | cons first rest => rw [withParts_of_not_isArray noArray (by simp), Option.getD_some]

/-- Attaching an item to an array adds it to the parts. -/
theorem attachItem_withParts {own : Schema} (undivided : own.Undivided)
    (array : own.isArray = true) (parts : List Part) (part : Part) :
    attachItem part.schema part.optional (parts.map Part.schema) (own.withParts parts) =
      own.withParts (parts ++ [part]) := by
  have frame : ∀ items minItems maxItems,
      { own.withParts parts with items, minItems, maxItems } =
        { own with items, minItems, maxItems } := by
    cases parts with
    | nil => simp
    | cons first rest => simp [withParts_of_isArray array]
  rw [attachItem, minItems_withParts undivided array, frame, withParts_of_isArray array (by simp),
    Part.mandatory_concat]
  cases optional : part.optional with
  | true => simp
  | false => cases count : (Part.mandatory parts).length <;> simp [count]

/-- Attaching a property to anything but an array adds it to the parts. -/
theorem attachProperty_withParts {own : Schema} (undivided : own.Undivided)
    (noArray : own.isArray = false) (parts : List Part) (part : Part)
    (distinct : (parts.map Part.leaf ++ [part.leaf]).Nodup) :
    attachProperty part.leaf part.schema part.optional (own.withParts parts) =
      own.withParts (parts ++ [part]) := by
  have frame : ∀ properties required,
      { own.withParts parts with properties, required } =
        { own with properties, required } := by
    cases parts with
    | nil => simp
    | cons first rest => simp [withParts_of_not_isArray noArray]
  rw [List.nodup_append] at distinct
  obtain ⟨before, -, apart⟩ := distinct
  have fresh : part.leaf ∉ parts.map Part.leaf := fun member =>
    apart part.leaf member part.leaf (by simp) rfl
  have named : part.leaf ∉ (Part.mandatory parts).map Part.leaf := fun member =>
    fresh (List.map_subset Part.leaf List.filter_sublist.subset member)
  rw [← Part.keys_entries] at before fresh
  have laid := Entries.overlay_concat undivided.distinct before fresh part.schema
  rw [attachProperty, required_withParts undivided noArray, properties_withParts noArray, frame,
    withParts_of_not_isArray noArray (by simp), Part.mandatory_concat, List.map_append,
    List.map_singleton, Part.entry, laid]
  cases optional : part.optional <;> simp [named]

/-- A part is found where the parts in front of it lead. -/
theorem part?_withParts {own : Schema} {front back : List Part} {part : Part}
    (fresh : part.leaf ∉ front.map Part.leaf) :
    (own.withParts (front ++ part :: back)).part? (own.stepTo front.length part.leaf) =
      some part.schema := by
  cases array : own.isArray with
  | true =>
      rw [withParts_of_isArray array (by simp), stepTo, if_pos (isArray_iff.mp array)]
      simp [part?, item?]
  | false =>
      rw [← Part.keys_entries] at fresh
      have laid := Entries.get?_append_cons fresh part.leaf part.schema (back.map Part.entry)
      rw [withParts_of_not_isArray array (by simp), stepTo, if_neg (isArray_eq_false_iff.mp array)]
      simp [part?, property?, Entries.get?_overlay, laid, Part.entry]

/-- Replacing a part replaces it among the parts. -/
theorem withPart_withParts {own : Schema} (undivided : own.Undivided)
    {front back : List Part} {part : Part}
    (distinct : ((front ++ part :: back).map Part.leaf).Nodup) (schema : Schema) :
    (own.withParts (front ++ part :: back)).withPart (own.stepTo front.length part.leaf) schema =
      own.withParts (front ++ { part with schema } :: back) := by
  have mandatory : (Part.mandatory (front ++ { part with schema } :: back)).map Part.leaf =
      (Part.mandatory (front ++ part :: back)).map Part.leaf := by
    cases optional : part.optional <;> simp [Part.mandatory, optional]
  cases array : own.isArray with
  | true =>
      have count := congrArg List.length mandatory
      rw [List.length_map, List.length_map] at count
      rw [withParts_of_isArray array (by simp), withParts_of_isArray array (by simp), stepTo,
        if_pos (isArray_iff.mp array), count]
      simp [withPart]
  | false =>
      rw [withParts_of_not_isArray array (by simp), withParts_of_not_isArray array (by simp),
        stepTo, if_neg (isArray_eq_false_iff.mp array), mandatory]
      rw [← Part.keys_entries, List.map_append, List.map_cons] at distinct
      have replaced := Entries.update_overlay undivided.distinct distinct schema
      simpa [withPart, Part.entry] using replaced

end Schema

end ApiAssembly
