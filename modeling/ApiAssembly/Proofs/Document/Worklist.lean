import ApiAssembly.Proofs.Document.MissingReference
import ApiAssembly.Proofs.Document.SchemaMapping

/-!
# A worklist of names

The rounds of a collection scan the whole document again and again.  A worklist scans
the merged document once and afterwards only the schemas that it adds: their references
go to the end of a queue, from whose front names are taken.  The main statement says
that both give the same document and the same missing names, that the names are handled
in breadth-first order, and that nothing else in the document changes.
-/

namespace ApiAssembly.Document

theorem defines_extendSchemas_singleton {document schemas : Members}
    (place : schemas? (openSchemas document) = some schemas) (name other : String)
    (schema : Value) :
    defines (extendSchemas [(name, schema)] document) other =
      (defines document other || decide (other = name)) := by
  obtain ⟨frame, opened⟩ := exists_frame place
  rw [extendSchemas_of_frame opened, ← defines_openSchemas document, opened, Bool.eq_iff_iff]
  simp only [SchemaFrame.defines_fill, Entries.contains_iff, Entries.keys_append,
    Entries.keys_cons, Entries.keys_nil, List.mem_append, List.mem_singleton,
    Bool.or_eq_true, decide_eq_true_eq]

/-- Installing a schema under an undefined name puts it behind the others. -/
theorem install_openSchemas {document schemas : Members} {name : String}
    (undefined : defines document name = false)
    (place : schemas? (openSchemas document) = some schemas) (schema : Value) :
    install name schema (openSchemas document) =
      extendSchemas [(name, schema)] document := by
  obtain ⟨frame, opened⟩ := exists_frame place
  have absent : name ∉ Entries.keys schemas := by
    rw [← Entries.contains_iff, ← frame.defines_fill, ← opened, defines_openSchemas,
      undefined]
    decide
  rw [extendSchemas_of_frame opened, opened, frame.install_fill,
    Entries.put_of_not_mem absent]

section Worklist

variable (typedefs models : Members)

/-- The pooled names that a document does not define. -/
def unprovided (document : Members) : List String :=
  (Entries.keys typedefs ++ Entries.keys models).filter fun name => !defines document name

theorem unprovided_openSchemas (document : Members) :
    unprovided typedefs models (openSchemas document) = unprovided typedefs models document := by
  simp [unprovided]

theorem addable?_eq_offered? (document : Members) :
    addable? typedefs models document = offered? (pooled? typedefs models) document := by
  funext name
  rw [addable?, schemaMapping?_eq_schemas?, withSchemaMapping_eq_openSchemas, offered?, hasPlace]
  cases schemas? (openSchemas document) <;> rfl

variable {typedefs models}

/-- What can be added is pooled, and the document has a place for it. -/
theorem exists_place_of_addable? {document : Members} {name : String} {schema : Value}
    (found : addable? typedefs models document name = some schema) :
    pooled? typedefs models name = some schema ∧
      ∃ schemas, schemas? (openSchemas document) = some schemas := by
  rw [addable?_eq_offered?, offered?] at found
  split at found
  next place => exact ⟨found, Option.isSome_iff_exists.mp place⟩
  · cases found

/-- Adding a pooled schema leaves fewer of them to add. -/
theorem length_unprovided_lt {document : Members} {name : String} {schema : Value}
    (undefined : defines document name = false)
    (found : addable? typedefs models document name = some schema) :
    (unprovided typedefs models
        (appendSchema name schema (withSchemaMapping document))).length <
      (unprovided typedefs models document).length := by
  obtain ⟨pooled, schemas, place⟩ := exists_place_of_addable? found
  have selected : unprovided typedefs models (extendSchemas [(name, schema)] document) =
      (unprovided typedefs models document).filter fun other => !decide (other = name) := by
    rw [unprovided, unprovided, List.filter_filter]
    apply List.filter_congr
    intro other _
    rw [defines_extendSchemas_singleton place]
    rw [Bool.not_or, Bool.and_comm]
  rw [appendSchema_withSchemaMapping place, selected]
  apply List.length_filter_lt_length_iff_exists.mpr
  refine ⟨name, ?_, by simp⟩
  rw [unprovided, List.mem_filter]
  exact ⟨mem_keys_of_pooled? pooled, by simp [undefined]⟩

variable (typedefs models)

/-- Work through a queue of names.  A name that is defined or missing already is passed
over.  Every other name has the mapping of schemas created for it and gets the pooled schema
as the last entry there, and the references of the schema go to the end of the queue; or,
without such a schema or without such a mapping, the name is missing. -/
def workThrough (queue : List String) (resolution : Resolution) : Resolution :=
  match queue with
  | [] => resolution
  | name :: queue =>
    if _known : name ∈ schemaNames resolution.document ∨ name ∈ resolution.missing then
      workThrough queue resolution
    else
      match _found : addable? typedefs models resolution.document name with
      | some schema =>
        workThrough (queue ++ (Value.object [(name, schema)]).schemaReferences)
          { resolution with
            document := appendSchema name schema (withSchemaMapping resolution.document) }
      | none =>
        workThrough queue
          ⟨withSchemaMapping resolution.document, resolution.missing ++ [name]⟩
termination_by ((unprovided typedefs models resolution.document).length, queue.length)
decreasing_by
  · exact .right _ (by simp)
  · refine .left _ _ (length_unprovided_lt ?_ _found)
    exact not_mem_schemaNames_iff.mp (not_or.mp _known).1
  · rw [withSchemaMapping_eq_openSchemas, unprovided_openSchemas]
    exact .right _ (by simp)

end Worklist

/-- The references that the schema on offer under a name adds to the queue. -/
def queuedReferences (offer? : String → Option Value) (name : String) : List String :=
  match offer? name with
  | some schema => (Value.object [(name, schema)]).schemaReferences
  | none => []

theorem queuedReferences_eq_eraseDups (pool : String → Option Value) (document : Members)
    (name : String) :
    queuedReferences (offered? pool document) name =
      (newReferences pool document name).eraseDups := by
  rw [queuedReferences, newReferences]
  cases offered? pool document name with
  | none => simp
  | some schema => exact Value.schemaReferences_eq_eraseDups _

section Worklist

variable {typedefs models : Members}

theorem workThrough_nil (resolution : Resolution) :
    workThrough typedefs models [] resolution = resolution := by
  rw [workThrough]

theorem workThrough_cons_of_known {resolution : Resolution} {name : String}
    (known : defines resolution.document name = true ∨ name ∈ resolution.missing)
    (queue : List String) :
    workThrough typedefs models (name :: queue) resolution =
      workThrough typedefs models queue resolution := by
  rw [← mem_schemaNames_iff] at known
  rw [workThrough, dif_pos known]

/-- A new name is provided as in a round, and the references of its schema are queued. -/
theorem workThrough_cons_of_unknown {resolution : Resolution} {name : String}
    (unknown : ¬(defines resolution.document name = true ∨ name ∈ resolution.missing))
    (queue : List String) :
    workThrough typedefs models (name :: queue) resolution =
      workThrough typedefs models
        (queue ++ queuedReferences
          (offered? (pooled? typedefs models) resolution.document) name)
        (resolution.provide (pooled? typedefs models) name) := by
  have undefined : defines resolution.document name = false := by
    simpa using (not_or.mp unknown).1
  rw [← mem_schemaNames_iff] at unknown
  rw [workThrough, dif_neg unknown, queuedReferences, ← addable?_eq_offered?]
  split
  next schema found =>
    obtain ⟨pooled, schemas, place⟩ := exists_place_of_addable? found
    rw [appendSchema_withSchemaMapping place, ← install_openSchemas undefined place]
    simp [Resolution.provide, found, pooled, place]
  next found =>
    have barren : pooled? typedefs models name = none ∨
        schemas? (openSchemas resolution.document) = none := by
      rw [addable?_eq_offered?, offered?, hasPlace] at found
      cases place : schemas? (openSchemas resolution.document) <;> simp_all
    rw [withSchemaMapping_eq_openSchemas, Resolution.provide, found]
    rcases barren with nothing | closed
    · simp [nothing]
    · cases pooled? typedefs models name <;> simp [closed]

end Worklist

end ApiAssembly.Document
