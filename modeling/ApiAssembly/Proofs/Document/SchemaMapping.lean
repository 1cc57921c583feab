import ApiAssembly.Proofs.Document.Place
import ApiAssembly.Proofs.Entries

/-!
# The mapping of the schemas

The part of a document in which schemas are looked up and to which they are added, described
by the entries of the document alone: the mapping of the schemas, its creation where nothing is
in its place, and a further schema at its end.  Schemas come from two mappings, of which the
first has precedence.  An assembly does the same by other operations.
-/

namespace ApiAssembly.Document

/-- The mapping under `schemas` in the mapping under `components`. -/
def schemaMapping? (document : Members) : Option Members :=
  match Entries.get? "components" document with
  | some (.object components) =>
    match Entries.get? "schemas" components with
    | some (.object schemas) => some schemas
    | _ => none
  | _ => none

/-- The names under which a document has schemas. -/
def schemaNames (document : Members) : List String :=
  match schemaMapping? document with
  | some schemas => schemas.map Prod.fst
  | none => []

/-- The document with empty mappings under `components` and its `schemas` where it has no such
entry.  An entry of another kind stays as it is. -/
def withSchemaMapping (document : Members) : Members :=
  match Entries.get? "components" document with
  | none => document ++ [("components", .object [("schemas", .object [])])]
  | some (.object components) =>
    match Entries.get? "schemas" components with
    | none =>
      Entries.put "components" (.object (components ++ [("schemas", .object [])])) document
    | some _ => document
  | some _ => document

/-- The document with a schema as the last entry of its mapping of schemas. -/
def appendSchema (name : String) (schema : Value) (document : Members) : Members :=
  match Entries.get? "components" document with
  | some (.object components) =>
    match Entries.get? "schemas" components with
    | some (.object schemas) =>
      Entries.put "components"
        (.object (Entries.put "schemas" (.object (schemas ++ [(name, schema)])) components))
        document
    | _ => document
  | _ => document

/-- The schema under a name among the type definitions or, failing that, among the models. -/
def pooled? (typedefs models : Members) (name : String) : Option Value :=
  match Entries.get? name typedefs with
  | some schema => some schema
  | none => Entries.get? name models

/-- The schema that can be added to a document under a name: the pooled one, unless something
else is in the place of the mapping. -/
def addable? (typedefs models document : Members) (name : String) : Option Value :=
  match schemaMapping? (withSchemaMapping document) with
  | some _ => pooled? typedefs models name
  | none => none

theorem mem_keys_of_pooled? {typedefs models : Members} {name : String} {schema : Value}
    (found : pooled? typedefs models name = some schema) :
    name ∈ Entries.keys typedefs ++ Entries.keys models := by
  rw [pooled?] at found
  cases inTypedefs : Entries.get? name typedefs with
  | some => exact List.mem_append_left _ (Entries.mem_keys_of_get? inTypedefs)
  | none =>
      rw [inTypedefs] at found
      exact List.mem_append_right _ (Entries.mem_keys_of_get? found)

theorem schemaMapping?_eq_schemas? (document : Members) :
    schemaMapping? document = schemas? document := by
  rw [schemaMapping?, schemas?]
  cases Entries.get? "components" document with
  | none => rfl
  | some value =>
      cases value with
      | object components =>
          simp only [Option.bind_some, Value.member?, Value.object?]
          cases Entries.get? "schemas" components with
          | none => rfl
          | some inner => cases inner <;> rfl
      | _ => rfl

theorem mem_schemaNames_iff {document : Members} {name : String} :
    name ∈ schemaNames document ↔ defines document name = true := by
  rw [schemaNames, schemaMapping?_eq_schemas?, defines]
  cases schemas? document with
  | none => simp
  | some schemas =>
      rw [Option.any_some, Entries.contains_iff]
      rfl

theorem not_mem_schemaNames_iff {document : Members} {name : String} :
    name ∉ schemaNames document ↔ defines document name = false := by
  rw [mem_schemaNames_iff, Bool.not_eq_true]

theorem withSchemaMapping_eq_openSchemas (document : Members) :
    withSchemaMapping document = openSchemas document := by
  rw [withSchemaMapping]
  cases componentsFound : Entries.get? "components" document with
  | none => rw [openSchemas, Entries.contains, componentsFound]; rfl
  | some value =>
      cases value with
      | object components =>
          cases schemasFound : Entries.get? "schemas" components with
          | none =>
              obtain ⟨before, after, rfl, absent⟩ :=
                Entries.exists_split_of_get? componentsFound
              rw [openSchemas, Entries.contains, componentsFound, Option.isSome_some,
                if_pos rfl, Entries.update_append_of_not_mem absent]
              simp [Entries.put_append_of_not_mem absent, Entries.put, Entries.update,
                openComponents, Entries.contains, schemasFound]
          | some inner =>
              have unchanged : openComponents (.object components) = .object components := by
                simp [openComponents, Entries.contains, schemasFound]
              simp only [schemasFound]
              exact (openSchemas_of_unchanged componentsFound unchanged).symm
      | _ => exact (openSchemas_of_unchanged componentsFound rfl).symm

theorem SchemaFrame.appendSchema_fill (frame : SchemaFrame) (schemas : Members) (name : String)
    (schema : Value) :
    appendSchema name schema (frame.fill schemas) =
      frame.fill (schemas ++ [(name, schema)]) := by
  have inner (further : Members) : Entries.put "schemas" (.object further)
      (frame.components schemas) = frame.components further := by
    rw [SchemaFrame.components, Entries.put_append_of_not_mem frame.schemas_absent,
      Entries.put, if_pos rfl, SchemaFrame.components]
  simp only [appendSchema, frame.get?_fill, frame.get?_components, inner]
  rw [SchemaFrame.fill, Entries.put_append_of_not_mem frame.components_absent,
    Entries.put, if_pos rfl, SchemaFrame.fill]

/-- A schema at the end of the mapping that was created for it. -/
theorem appendSchema_withSchemaMapping {document schemas : Members}
    (place : schemas? (openSchemas document) = some schemas) (name : String) (schema : Value) :
    appendSchema name schema (withSchemaMapping document) =
      extendSchemas [(name, schema)] document := by
  obtain ⟨frame, opened⟩ := exists_frame place
  rw [withSchemaMapping_eq_openSchemas, extendSchemas_of_frame opened, opened,
    frame.appendSchema_fill]

end ApiAssembly.Document
