import ApiAssembly.Document.Assembly
import ApiAssembly.Proofs.Value.Reference

/-!
# The place of the schemas in a document

A document that has a place for schemas is a frame filled with them: the frame is
everything outside `components.schemas`.  Opening a document and adding schemas to it
keep the frame, and whether there is a place never changes.  A document without a place
is changed by neither.
-/

namespace ApiAssembly.Document

/-- Everything in a document outside the object of its schemas. -/
structure SchemaFrame where
  before : Members
  after : Members
  /-- The components in front of the schemas. -/
  componentsBefore : Members
  componentsAfter : Members
  components_absent : "components" ∉ Entries.keys before
  schemas_absent : "schemas" ∉ Entries.keys componentsBefore

namespace SchemaFrame

/-- The components of a frame around the given schemas. -/
def components (frame : SchemaFrame) (schemas : Members) : Members :=
  frame.componentsBefore ++ ("schemas", .object schemas) :: frame.componentsAfter

/-- The document of a frame with the given schemas. -/
def fill (frame : SchemaFrame) (schemas : Members) : Members :=
  frame.before ++ ("components", .object (frame.components schemas)) :: frame.after

variable (frame : SchemaFrame) (schemas : Members)

@[simp]
theorem get?_components :
    Entries.get? "schemas" (frame.components schemas) = some (.object schemas) := by
  rw [components, Entries.get?_append_of_not_mem frame.schemas_absent]
  simp [Entries.get?]

@[simp]
theorem get?_fill :
    Entries.get? "components" (frame.fill schemas) =
      some (.object (frame.components schemas)) := by
  rw [fill, Entries.get?_append_of_not_mem frame.components_absent]
  simp [Entries.get?]

theorem update_components {change : Value → Value} {changed : Members}
    (becomes : change (.object schemas) = .object changed) :
    Entries.update "schemas" change (frame.components schemas) = frame.components changed := by
  rw [components, Entries.update_append_of_not_mem frame.schemas_absent]
  simp [Entries.update, becomes, components]

theorem update_fill {change : Value → Value} {changed : Members}
    (becomes : change (.object (frame.components schemas)) =
      .object (frame.components changed)) :
    Entries.update "components" change (frame.fill schemas) = frame.fill changed := by
  rw [fill, Entries.update_append_of_not_mem frame.components_absent]
  simp [Entries.update, becomes, fill]

@[simp]
theorem schemas?_fill : schemas? (frame.fill schemas) = some schemas := by
  simp [schemas?]

@[simp]
theorem defines_fill (name : String) :
    defines (frame.fill schemas) name = Entries.contains name schemas := by
  simp [defines]

@[simp]
theorem openSchemas_fill : openSchemas (frame.fill schemas) = frame.fill schemas := by
  rw [openSchemas, if_pos (by simp [Entries.contains])]
  apply frame.update_fill
  simp [openComponents, Entries.contains]

@[simp]
theorem install_fill (name : String) (schema : Value) :
    install name schema (frame.fill schemas) =
      frame.fill (Entries.put name schema schemas) := by
  rw [install]
  apply frame.update_fill
  rw [installInComponents, frame.update_components schemas]
  rfl

/-- The references of a filled frame: those of the schemas stand between those of the
frame. -/
theorem exists_referenceNames_fill :
    ∃ front back, ∀ schemas, (Value.object (frame.fill schemas)).referenceNames =
      front ++ (Value.object schemas).referenceNames ++ back := by
  refine ⟨(Value.object frame.before).referenceNames ++
      (Value.object frame.componentsBefore).referenceNames,
    (Value.object frame.componentsAfter).referenceNames ++
      (Value.object frame.after).referenceNames, fun schemas => ?_⟩
  have inner : (Value.object (frame.components schemas)).referenceNames =
      (Value.object frame.componentsBefore).referenceNames ++
        ((Value.object schemas).referenceNames ++
          (Value.object frame.componentsAfter).referenceNames) := by
    rw [components, Value.referenceNames_object_append, Value.referenceNames_object_cons,
      Value.referenceNames_object_singleton (by decide)]
  rw [fill, Value.referenceNames_object_append, Value.referenceNames_object_cons,
    Value.referenceNames_object_singleton (by decide), inner]
  simp only [List.append_assoc]

end SchemaFrame

/-- A document that has a place for schemas is a filled frame. -/
theorem exists_frame {document schemas : Members} (place : schemas? document = some schemas) :
    ∃ frame : SchemaFrame, document = frame.fill schemas := by
  rw [schemas?, Option.bind_eq_some_iff] at place
  obtain ⟨value, componentsFound, place⟩ := place
  obtain ⟨inner, schemasFound, isObject⟩ := Option.bind_eq_some_iff.mp place
  obtain ⟨components, componentsObject, schemasFound⟩ := Option.bind_eq_some_iff.mp schemasFound
  have valueEq : value = .object components := by
    cases value <;> simp_all [Value.object?]
  have innerEq : inner = .object schemas := by
    cases inner <;> simp_all [Value.object?]
  subst valueEq innerEq
  obtain ⟨before, after, rfl, componentsAbsent⟩ := Entries.exists_split_of_get? componentsFound
  obtain ⟨front, back, rfl, schemasAbsent⟩ := Entries.exists_split_of_get? schemasFound
  exact ⟨⟨before, after, front, back, componentsAbsent, schemasAbsent⟩, rfl⟩

/-- The opened document is a filled frame, of the schemas that the document defined. -/
def OpensFrame (document : Members) : Prop :=
  ∃ (frame : SchemaFrame) (schemas : Members),
    openSchemas document = frame.fill schemas ∧ (schemas? document).getD [] = schemas ∧
      (Value.object (frame.fill schemas)).referenceNames =
        (Value.object document).referenceNames

section Opening

variable {document : Members}

theorem opensFrame_of_schemas? {schemas : Members} (place : schemas? document = some schemas) :
    OpensFrame document := by
  obtain ⟨frame, rfl⟩ := exists_frame place
  exact ⟨frame, schemas, frame.openSchemas_fill schemas, by simp, rfl⟩

theorem opensFrame_of_no_components
    (componentsFound : Entries.get? "components" document = none) : OpensFrame document := by
  have absent := Entries.get?_eq_none_iff.mp componentsFound
  refine ⟨⟨document, [], [], [], absent, by simp⟩, [], ?_, ?_, ?_⟩
  · simp [openSchemas, Entries.contains, componentsFound, SchemaFrame.fill,
      SchemaFrame.components]
  · simp [schemas?, componentsFound]
  · simp only [SchemaFrame.fill, SchemaFrame.components]
    rw [Value.referenceNames_object_append,
      Value.referenceNames_object_singleton (by decide), List.nil_append,
      Value.referenceNames_object_singleton (by decide)]
    simp

theorem opensFrame_of_no_schemas {components : Members}
    (componentsFound : Entries.get? "components" document = some (.object components))
    (schemasFound : Entries.get? "schemas" components = none) : OpensFrame document := by
  have absent := Entries.get?_eq_none_iff.mp schemasFound
  obtain ⟨before, after, documentEq, componentsAbsent⟩ :=
    Entries.exists_split_of_get? componentsFound
  refine ⟨⟨before, after, components, [], componentsAbsent, absent⟩, [], ?_, ?_, ?_⟩
  · rw [openSchemas, if_pos (by simp [Entries.contains, componentsFound]), documentEq,
      Entries.update_append_of_not_mem componentsAbsent]
    simp [Entries.update, openComponents, Entries.contains, schemasFound,
      SchemaFrame.fill, SchemaFrame.components]
  · simp [schemas?, componentsFound, schemasFound]
  · simp only [SchemaFrame.fill, SchemaFrame.components, documentEq]
    rw [Value.referenceNames_object_append, Value.referenceNames_object_append,
      Value.referenceNames_object_cons,
      Value.referenceNames_object_singleton (by decide),
      Value.referenceNames_object_append,
      Value.referenceNames_object_singleton (by decide),
      Value.referenceNames_object_cons ("components", .object components),
      Value.referenceNames_object_singleton (by decide)]
    simp

theorem openSchemas_of_unchanged {value : Value}
    (componentsFound : Entries.get? "components" document = some value)
    (unchanged : openComponents value = value) : openSchemas document = document := by
  rw [openSchemas, if_pos (by simp [Entries.contains, componentsFound])]
  apply Entries.update_eq_self
  intro other found
  rw [componentsFound, Option.some.injEq] at found
  rw [← found, unchanged]

/-- Opening a document gives it a place for schemas, or the document has no place and stays
as it is. -/
theorem openSchemas_cases (document : Members) :
    OpensFrame document ∨ (openSchemas document = document ∧ schemas? document = none) := by
  cases place : schemas? document with
  | some schemas => exact Or.inl (opensFrame_of_schemas? place)
  | none =>
      cases componentsFound : Entries.get? "components" document with
      | none => exact Or.inl (opensFrame_of_no_components componentsFound)
      | some value =>
          by_cases isObject : ∃ components, value = .object components
          · obtain ⟨components, rfl⟩ := isObject
            cases schemasFound : Entries.get? "schemas" components with
            | none => exact Or.inl (opensFrame_of_no_schemas componentsFound schemasFound)
            | some inner =>
                have unchanged : openComponents (.object components) = .object components := by
                  simp [openComponents, Entries.contains, schemasFound]
                exact Or.inr ⟨openSchemas_of_unchanged componentsFound unchanged, rfl⟩
          · have unchanged : openComponents value = value := by
              cases value <;> simp_all [openComponents]
            exact Or.inr ⟨openSchemas_of_unchanged componentsFound unchanged, rfl⟩

end Opening

@[simp]
theorem defines_openSchemas (document : Members) (name : String) :
    defines (openSchemas document) name = defines document name := by
  rcases openSchemas_cases document with ⟨frame, schemas, opened, defined, -⟩ | ⟨opened, -⟩
  · cases place : schemas? document with
    | none =>
        obtain rfl : schemas = [] := by simpa [place] using defined.symm
        simp [opened, defines, place, Entries.contains]
    | some present =>
        obtain rfl : present = schemas := by simpa [place] using defined
        simp [opened, defines, place]
  · rw [opened]

@[simp]
theorem referenceNames_openSchemas (document : Members) :
    (Value.object (openSchemas document)).referenceNames =
      (Value.object document).referenceNames := by
  rcases openSchemas_cases document with ⟨frame, schemas, opened, -, same⟩ | ⟨opened, -⟩
  · rw [opened, same]
  · rw [opened]

@[simp]
theorem openSchemas_openSchemas (document : Members) :
    openSchemas (openSchemas document) = openSchemas document := by
  rcases openSchemas_cases document with ⟨frame, schemas, opened, -⟩ | ⟨opened, -⟩
  · rw [opened, frame.openSchemas_fill]
  · rw [opened, opened]

/-- Whether a document has a place for schemas or room for one. -/
def hasPlace (document : Members) : Bool :=
  (schemas? (openSchemas document)).isSome

/-- A document that could be opened is a filled frame. -/
theorem exists_frame_of_hasPlace {document : Members} (place : hasPlace document = true) :
    ∃ (frame : SchemaFrame) (schemas : Members), openSchemas document = frame.fill schemas := by
  obtain ⟨schemas, found⟩ := Option.isSome_iff_exists.mp place
  obtain ⟨frame, opened⟩ := exists_frame found
  exact ⟨frame, schemas, opened⟩

/-- Put members behind those of an object. -/
def appendMembers (added : Members) : Value → Value
  | .object members => .object (members ++ added)
  | other => other

/-- Put schemas behind those of components that have a place for them. -/
def extendComponents (added : Members) : Value → Value
  | .object components => .object (Entries.update "schemas" (appendMembers added) components)
  | other => other

/-- The opened document with schemas behind those that it defines, if it has a place. -/
def extendSchemas (added : Members) (document : Members) : Members :=
  Entries.update "components" (extendComponents added) (openSchemas document)

theorem extendSchemas_of_frame {document : Members} {frame : SchemaFrame} {schemas : Members}
    (opened : openSchemas document = frame.fill schemas) (added : Members) :
    extendSchemas added document = frame.fill (schemas ++ added) := by
  rw [extendSchemas, opened]
  apply frame.update_fill
  rw [extendComponents, frame.update_components schemas]
  rfl

end ApiAssembly.Document
