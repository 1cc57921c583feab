import ApiAssembly.Proofs.Document.Rebuilding

/-!
# Reporting missing references

A name for which there is no schema is reported, and the references to it stay as they are.
But a document is given a place for schemas before the schema of a name is looked for.  So where
nothing but reports comes of the references, the built document is the merged one, apart from an
empty place for schemas that it may have gained; the main statement tells when it does.
-/

namespace ApiAssembly.Document

section Place

/-- The second document is the first one with an empty place for schemas, which it lacked: at
the end of its components, or in components of their own at its end. -/
inductive GainsPlace : Members → Members → Prop where
  | components {document : Members} (absent : "components" ∉ Entries.keys document) :
      GainsPlace document (document ++ [("components", .object [("schemas", .object [])])])
  | schemas {before after components : Members}
      (first : "components" ∉ Entries.keys before) (absent : "schemas" ∉ Entries.keys components) :
      GainsPlace (before ++ ("components", .object components) :: after)
        (before ++ ("components", .object (components ++ [("schemas", .object [])])) :: after)

variable {document other : Members}

theorem GainsPlace.ne (gains : GainsPlace document other) : other ≠ document := by
  cases gains with
  | components => simp
  | schemas => simp

theorem GainsPlace.openSchemas_eq (gains : GainsPlace document other) :
    openSchemas document = other := by
  cases gains with
  | components absent =>
      rw [openSchemas, if_neg (Entries.contains_iff.not.mpr absent)]
  | @schemas before after components first absent =>
      have present : Entries.contains "components"
          (before ++ ("components", .object components) :: after) = true := by
        simp [Entries.contains_iff, Entries.keys]
      have opened : openComponents (.object components) =
          .object (components ++ [("schemas", .object [])]) :=
        if_neg (Entries.contains_iff.not.mpr absent)
      rw [openSchemas, if_pos present, Entries.update_append_of_not_mem first, Entries.update,
        if_pos rfl, opened]

/-- Opening a document changes nothing or gives it a place for schemas. -/
theorem gainsPlace_openSchemas (changed : openSchemas document ≠ document) :
    GainsPlace document (openSchemas document) := by
  cases componentsFound : Entries.get? "components" document with
  | none =>
      have gains := GainsPlace.components (Entries.get?_eq_none_iff.mp componentsFound)
      rwa [gains.openSchemas_eq]
  | some value =>
      have grown : openComponents value ≠ value :=
        fun unchanged => changed (openSchemas_of_unchanged componentsFound unchanged)
      obtain ⟨before, after, rfl, first⟩ := Entries.exists_split_of_get? componentsFound
      cases value with
      | object components =>
          have absent : "schemas" ∉ Entries.keys components := by
            intro present
            rw [← Entries.contains_iff] at present
            exact grown (if_pos present)
          have gains : GainsPlace (before ++ ("components", .object components) :: after) _ :=
            .schemas first absent
          rwa [gains.openSchemas_eq]
      | _ => exact absurd rfl grown

theorem openSchemas_eq_self_iff :
    openSchemas document = document ↔ ∀ other, ¬GainsPlace document other := by
  constructor
  · intro unchanged other gains
    exact gains.ne (gains.openSchemas_eq.symm.trans unchanged)
  · intro none
    by_contra changed
    exact none _ (gainsPlace_openSchemas changed)

end Place

/-- The names that the document refers to without a definition, each one once. -/
def undefinedNames (document : Members) : List String :=
  (Value.object document).schemaReferences.filter fun name => name ∉ schemaNames document

theorem needed_start (document : Members) :
    (⟨document, []⟩ : Resolution).needed = undefinedNames document := by
  simp [Resolution.needed, undefinedNames, mem_schemaNames_iff]

namespace Collection

variable {collection : Collection}

/-- Where there is no schema for an undefined name, all of them are missing, and the document
is opened if there are any. -/
theorem resolution_of_unavailable
    (unavailable : ∀ name ∈ undefinedNames collection.merged, collection.schema? name = none) :
    collection.resolution =
      ⟨if undefinedNames collection.merged = [] then collection.merged
        else openSchemas collection.merged, undefinedNames collection.merged⟩ := by
  have barren : ∀ name ∈ undefinedNames collection.merged,
      offered? collection.schema? collection.merged name = none := by
    intro name member
    rw [offered?, unavailable name member, ite_self]
  exact (collection.settles_resolution.unique (settles_of_barren (needed_start _) barren)).trans
    (afterHandling_of_barren barren)

/-- Where there is no schema for any undefined name, all of them are reported, and the built
document is the merged one or gains an empty place for schemas: it gains the place exactly if
there is something to report and the merged document has room for a place and none there. -/
theorem assemble_of_unavailable
    (unavailable : ∀ name ∈ undefinedNames collection.merged,
      name ∉ Entries.keys collection.typedefs ∧ name ∉ Entries.keys collection.models) :
    collection.merged =
        Value.mergeAll
          [("openapi", .string "3.0.0"),
            ("info", .object [("title", .string collection.info.title),
              ("version", .string collection.info.version)])]
          collection.fragments ∧
      ∃ document : Members, collection.assemble.document = .object document ∧
        collection.assemble.errors = collection.errors ++
          (undefinedNames collection.merged).map (fun name => ⟨.missingSchema name, none⟩) ∧
        (document = collection.merged ∨ GainsPlace collection.merged document) ∧
        (document = collection.merged ↔
          undefinedNames collection.merged = [] ∨
            ∀ other, ¬GainsPlace collection.merged other) := by
  have noSchema : ∀ name ∈ undefinedNames collection.merged, collection.schema? name = none := by
    intro name member
    obtain ⟨noTypedef, noModel⟩ := unavailable name member
    rw [schema?_eq_pooled?, pooled?, Entries.get?_eq_none_iff.mpr noTypedef]
    exact Entries.get?_eq_none_iff.mpr noModel
  have resolved := resolution_of_unavailable noSchema
  refine ⟨rfl, collection.resolution.document, rfl, ?_, ?_, ?_⟩
  · rw [assemble, resolved]
  · rw [resolved]
    split
    · exact .inl rfl
    · by_cases changed : openSchemas collection.merged = collection.merged
      · exact .inl changed
      · exact .inr (gainsPlace_openSchemas changed)
  · rw [resolved, ← openSchemas_eq_self_iff]
    split
    next nothing => exact iff_of_true rfl (.inl nothing)
    next something => rw [or_iff_right something]

end Collection

/-- A fragment that refers to a schema, of which there is none. -/
def danglingContributions : List Contribution :=
  [.fragment [("paths", .object [("/a",
    .object [("$ref", .string "#/components/schemas/Ghost")])])]]

def danglingCollection : Collection :=
  .ofContributions danglingContributions

theorem undefinedNames_danglingCollection :
    undefinedNames danglingCollection.merged = ["Ghost"] := by
  cbv

/-- The document without components gains some with the report. -/
theorem assemble_danglingCollection :
    (∀ name ∈ undefinedNames danglingCollection.merged,
        name ∉ Entries.keys danglingCollection.typedefs ∧
          name ∉ Entries.keys danglingCollection.models) ∧
      danglingCollection.assemble.errors = [⟨.missingSchema "Ghost", none⟩] ∧
      ∃ document : Members, danglingCollection.assemble.document = .object document ∧
        GainsPlace danglingCollection.merged document := by
  have unavailable : ∀ name ∈ undefinedNames danglingCollection.merged,
      name ∉ Entries.keys danglingCollection.typedefs ∧
        name ∉ Entries.keys danglingCollection.models :=
    fun _ _ => ⟨List.not_mem_nil, List.not_mem_nil⟩
  obtain ⟨-, document, built, errors, outcome, same⟩ :=
    Collection.assemble_of_unavailable unavailable
  rw [undefinedNames_danglingCollection] at errors same
  have room : GainsPlace danglingCollection.merged _ := .components (by decide)
  refine ⟨unavailable, errors, document, built, outcome.resolve_left ?_⟩
  intro unchanged
  rcases same.mp unchanged with nothing | closed
  · cases nothing
  · exact closed _ room

theorem assemble_danglingContributions_ne :
    (∀ name ∈ undefinedNames danglingCollection.merged,
        name ∉ Entries.keys danglingCollection.typedefs ∧
          name ∉ Entries.keys danglingCollection.models) ∧
      (assemble danglingContributions).document ≠ .object danglingCollection.merged := by
  have built : (assemble danglingContributions).document = .object (danglingCollection.merged ++
      [("components", .object [("schemas", .object [])])]) := by
    cbv
  refine ⟨fun _ _ => ⟨List.not_mem_nil, List.not_mem_nil⟩, ?_⟩
  rw [built]
  simp

end ApiAssembly.Document
