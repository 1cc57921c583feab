import ApiAssembly.Proofs.Schema.Converting
import ApiAssembly.Proofs.Typedef.Part

/-!
# Converted schemas

The schema of a type expression has one of a few forms, and its inner schemas have too.  It
has no parts yet: its items are absent or alike, no items or properties are required, and the
keys of a record are distinct.  So it is with the schema of every declaration, and with that
of the type itself.
-/

namespace ApiAssembly

open Comment (Tag)

namespace Schema

theorem undivided_of_absent {schema : Schema} (items : schema.items = .absent)
    (minItems : schema.minItems = none) (required : schema.required = [])
    (extensions : schema.extensions = [])
    (distinct : (Entries.keys (schema.properties.getD [])).Nodup) : schema.Undivided where
  items_ne_tuple := by simp [items]
  minItems_eq := minItems
  required_eq := required
  extensions_eq := extensions
  distinct := distinct

/-- What is said about a schema as a whole does not divide it. -/
theorem Undivided.annotate {schema : Schema} (undivided : schema.Undivided)
    (title description : Option String) (nullable : Bool) (defaultValue : Option Value) :
    { schema with title, description, nullable, defaultValue }.Undivided where
  items_ne_tuple := undivided.items_ne_tuple
  minItems_eq := undivided.minItems_eq
  required_eq := undivided.required_eq
  extensions_eq := undivided.extensions_eq
  distinct := undivided.distinct

/-- The forms that the schema of a type expression has. -/
inductive Converted : Schema → Prop where
  | type (name : String) : Converted (ofType name)
  | reference (name : String) : Converted (referenceTo name)
  | strings (literals : List String) : Converted (ofStrings literals)
  | numbers (literals : List Decimal.Binary64) : Converted (ofNumbers literals)
  | alternatives {schemas : List Schema} (each : ∀ schema ∈ schemas, Converted schema) :
      Converted { oneOf := schemas }
  | parts {schemas : List Schema} (each : ∀ schema ∈ schemas, Converted schema) :
      Converted { typeName := some "object", allOf := schemas }
  | record {properties : Entries Schema} (distinct : (Entries.keys properties).Nodup)
      (each : ∀ schema ∈ Entries.values properties, Converted schema) :
      Converted { typeName := some "object", properties := some properties }
  | array {element : Schema} (inner : Converted element) : Converted (arrayOf element)

theorem converted_ofName (name : String) : (ofName name).Converted := by
  simp only [ofName]
  split
  · exact .type _
  · split
    · exact .type _
    · exact .reference _

theorem forall_mem_of_forall₂ {holds : Schema → Prop} {expressions : List TypeExpr}
    {schemas : List Schema}
    (each : List.Forall₂ (fun _ schema => holds schema) expressions schemas) :
    ∀ schema ∈ schemas, holds schema := by
  intro schema member
  obtain ⟨_, -, inside⟩ := exists_of_mem_of_forall₂ each member
  exact inside

theorem closed_converted : ClosedUnderConversion fun _ schema => schema.Converted where
  name := converted_ofName
  strings _ := .strings _
  numbers _ := .numbers _
  alternatives each := .alternatives (forall_mem_of_forall₂ each)
  conjuncts each := .parts (forall_mem_of_forall₂ each)
  parenthesis inside := inside
  any := .type _
  record each := by
    have empty : (Entries.keys ([] : Entries Schema)).Nodup := List.nodup_nil
    refine .record (Entries.nodup_keys_putAll empty _) fun schema member => ?_
    exact forall_mem_of_forall₂ each schema (mem_of_mem_values_putAll_zip member)
  array _ inside := .array inside

theorem converted_of_ofText {text : String} {schema : Schema}
    (success : ofText text = .ok schema) : schema.Converted := by
  rw [ofText] at success
  split at success
  · cases success
  · exact closed_converted.of_ofTypeExpr success

theorem Converted.undivided {schema : Schema} (converted : schema.Converted) :
    schema.Undivided := by
  cases converted with
  | record distinct each => exact undivided_of_absent rfl rfl rfl rfl distinct
  | array inner =>
      constructor
      case items_ne_tuple => simp [arrayOf]
      case distinct => exact List.nodup_nil
      all_goals rfl
  | _ => exact undivided_of_absent rfl rfl rfl rfl List.nodup_nil

end Schema

namespace Typedef

/-- The schema of a declaration is that of a type, with what is said about it as a whole. -/
theorem exists_of_propertySchema_eq_ok {tag : Tag} {schema : Schema}
    (success : propertySchema tag = .ok schema) :
    ∃ plain : Schema, plain.Converted ∧
      schema = { plain with
        description := if tag.description = "" then plain.description else some tag.description
        defaultValue := (tag.defaultText.map defaultValue).or plain.defaultValue
        nullable := tag.optional || plain.nullable } := by
  rw [propertySchema] at success
  split at success
  · cases success
    exact ⟨{}, .alternatives (by simp), rfl⟩
  · obtain ⟨plain, converts, whole⟩ := exists_of_bind_eq_ok success
    cases whole
    exact ⟨plain, Schema.converted_of_ofText converts, rfl⟩

theorem undivided_of_propertySchema {tag : Tag} {schema : Schema}
    (success : propertySchema tag = .ok schema) : schema.Undivided := by
  obtain ⟨plain, converted, rfl⟩ := exists_of_propertySchema_eq_ok success
  exact converted.undivided.annotate _ _ _ _

theorem converted_rootSchema (typeText : String) : (rootSchema typeText).1.Converted := by
  rw [rootSchema]
  split
  · exact .type _
  · split
    · rename_i converts
      exact Schema.converted_of_ofText converts
    · exact .type _

theorem undivided_rootSchema (typeText : String) : (rootSchema typeText).1.Undivided :=
  (converted_rootSchema typeText).undivided

end Typedef

end ApiAssembly
