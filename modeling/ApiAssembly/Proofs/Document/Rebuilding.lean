import ApiAssembly.Proofs.Document.BreadthFirst
import ApiAssembly.Proofs.Document.Contributing

/-!
# Building from a built document

A built document has grown out of everything that was merged into it, so it can be merged
again wherever one likes: into the fragments that came early it merges to itself, and it
absorbs those that come late.  What was missing stays missing, and the schemas that were
provided are defined by then.  The main statements say that a build from its own output
alone, and one with its output among its contributions, give the same document again.
-/

namespace ApiAssembly.Document

/-- Where nothing is on offer for the needed names, one round reports them all. -/
theorem settles_of_barren {pool : String → Option Value} {document : Members}
    {names : List String} (needed : (⟨document, []⟩ : Resolution).needed = names)
    (barren : ∀ name ∈ names, offered? pool document name = none) :
    Settles pool ⟨document, []⟩ (afterHandling pool document names) := by
  have start := afterHandling_nil pool document
  by_cases nothing : names = []
  · rw [nothing, start]
    exact .done (needed.trans nothing)
  · rw [← start] at needed
    have round := foldl_provide_needed pool document []
    have last := @needed_after_barren_round pool document [] (needed.symm ▸ barren)
    rw [needed, List.nil_append] at round last
    rw [start] at needed round
    refine .round (needed ▸ nothing) ?_
    rw [needed, round]
    exact .done last

/-- Names that are not on offer are all missing, and the document is opened for them. -/
theorem afterHandling_of_barren {pool : String → Option Value} {document : Members}
    {names : List String} (barren : ∀ name ∈ names, offered? pool document name = none) :
    afterHandling pool document names =
      ⟨if names = [] then document else openSchemas document, names⟩ := by
  have allMissing : (names.filter fun name => (offered? pool document name).isNone) = names := by
    apply List.filter_eq_self.mpr
    intro name member
    rw [barren name member, Option.isNone_none]
  have noOffer : offeredMembers pool document names = [] := by
    apply List.filterMap_eq_nil_iff.mpr
    intro name member
    rw [barren name member, Option.map_none]
  rw [afterHandling, noOffer, extendSchemas_nil, allMissing]
  split
  next nothing => rw [nothing]
  next => rfl

namespace Collection

variable {collection other : Collection}

/-- Where a name was missing, the document has a place for schemas if it can have one. -/
theorem openSchemas_document (collection : Collection)
    (something : collection.resolution.missing ≠ []) :
    openSchemas collection.resolution.document = collection.resolution.document := by
  obtain ⟨names, final, -⟩ := collection.exists_handledNames
  have handled : names ≠ [] := by
    rintro rfl
    rw [final] at something
    exact something rfl
  rw [final, openSchemas_afterHandling, afterHandling, if_neg handled]

theorem mem_missing_iff (collection : Collection) {name : String} :
    name ∈ collection.resolution.missing ↔
      name ∈ (Value.object collection.resolution.document).referenceNames ∧
        defines collection.resolution.document name = false := by
  rw [← Value.mem_schemaReferences]
  constructor
  · intro missing
    exact ⟨collection.mem_schemaReferences_of_mem_missing missing,
      collection.not_defines_of_mem_missing missing⟩
  · rintro ⟨referred, undefined⟩
    rcases collection.defines_or_mem_missing referred with defined | missing
    · rw [undefined] at defined
      cases defined
    · exact missing

/-- A collection that merges to the document of another one, and has nothing to offer for
the names that are missing there, gets the same document and misses the same names. -/
theorem resolution_of_merged_eq
    (merged : other.merged = collection.resolution.document)
    (barren : ∀ name ∈ collection.resolution.missing,
      offered? other.schema? other.merged name = none) :
    other.resolution.document = collection.resolution.document ∧
      other.resolution.missing.Perm collection.resolution.missing := by
  obtain ⟨needed, neededEq⟩ :
      ∃ needed, (⟨other.merged, []⟩ : Resolution).needed = needed := ⟨_, rfl⟩
  have member : ∀ name, name ∈ needed ↔ name ∈ collection.resolution.missing := by
    intro name
    rw [← neededEq, ← afterHandling_nil other.schema?, mem_needed_afterHandling,
      afterHandling_nil, merged, collection.mem_missing_iff]
    simp
  have neededBarren : ∀ name ∈ needed, offered? other.schema? other.merged name = none :=
    fun name inside => barren name ((member name).mp inside)
  have final : other.resolution =
      ⟨if needed = [] then other.merged else openSchemas other.merged, needed⟩ :=
    (other.settles_resolution.unique (settles_of_barren neededEq neededBarren)).trans
      (afterHandling_of_barren neededBarren)
  constructor
  · rw [final]
    split
    · exact merged
    · rename_i something
      have missing : collection.resolution.missing ≠ [] := by
        obtain ⟨name, inside⟩ := List.exists_mem_of_ne_nil needed something
        exact List.ne_nil_of_mem ((member name).mp inside)
      rw [merged, collection.openSchemas_document missing]
  · have distinct := nodup_needed_afterHandling other.schema? other.merged []
    rw [afterHandling_nil, neededEq] at distinct
    rw [final]
    exact (List.perm_ext_iff_of_nodup distinct collection.nodup_missing).mpr member

/-- Merging may pause between the early and the late fragments. -/
theorem merged_eq_of_fragments {early late : List Members}
    (fragments : collection.fragments = early ++ late) :
    collection.merged = Value.mergeAll (Value.mergeAll (seed collection.info) early) late := by
  rw [Collection.merged, fragments, Value.mergeAll, List.foldl_append]
  rfl

/-- The document of a collection merges to itself behind the fragments that came early. -/
theorem Sound.mergeMembers_output (sound : collection.Sound) {early late : List Members}
    (fragments : collection.fragments = early ++ late) :
    Value.mergeMembers (Value.mergeAll (seed collection.info) early)
      (normalize collection.resolution.document) = collection.resolution.document := by
  have seedKeyed := wellKeyed_seed collection.info
  have keyed : ∀ fragment ∈ early ++ late, (Value.object fragment).WellKeyed :=
    fun fragment member => (sound fragment (fragments ▸ member)).2
  have earlyKeyed : ∀ fragment ∈ early, (Value.object fragment).WellKeyed :=
    fun fragment member => keyed fragment (List.mem_append_left late member)
  have lateKeyed : ∀ fragment ∈ late, (Value.object fragment).WellKeyed :=
    fun fragment member => keyed fragment (List.mem_append_right early member)
  have growth : Value.Grows (.object (Value.mergeAll (seed collection.info) early))
      (.object collection.resolution.document) := by
    have first := Value.grows_mergeAll (Value.wellKeyed_mergeAll seedKeyed earlyKeyed) lateKeyed
    rw [← merged_eq_of_fragments fragments] at first
    exact first.trans sound.grows_resolution
  have absorbed := growth.absorbs_origin
  have seedAbsorbed := (Value.grows_mergeAll seedKeyed earlyKeyed).absorbs_start seedKeyed
  rw [Value.combine_object, Value.object.injEq] at absorbed seedAbsorbed
  rw [sound.document_eq, Value.mergeMembers_append, seedAbsorbed,
    ← sound.document_eq] at absorbed
  exact absorbed

/-- The document of a collection absorbs the fragments that came late. -/
theorem Sound.mergeAll_late (sound : collection.Sound) {early late : List Members}
    (fragments : collection.fragments = early ++ late) :
    Value.mergeAll collection.resolution.document late = collection.resolution.document := by
  have keyed : ∀ fragment ∈ early ++ late, (Value.object fragment).WellKeyed :=
    fun fragment member => (sound fragment (fragments ▸ member)).2
  have earlyKeyed := Value.wellKeyed_mergeAll (wellKeyed_seed collection.info)
    fun fragment member => keyed fragment (List.mem_append_left late member)
  refine Value.mergeAll_eq_of_grows earlyKeyed
    (fun fragment member => keyed fragment (List.mem_append_right early member)) ?_
  rw [← merged_eq_of_fragments fragments]
  exact sound.grows_resolution

/-- What is missing is not on offer for the final document either. -/
theorem offered?_document_of_mem_missing (collection : Collection) {name : String}
    (missing : name ∈ collection.resolution.missing) :
    offered? collection.schema? collection.resolution.document name = none := by
  obtain ⟨names, final, -⟩ := collection.exists_handledNames
  rw [final, missing_afterHandling, List.mem_filter, Option.isNone_iff_eq_none] at missing
  rw [final, offered?, hasPlace_afterHandling, ← offered?]
  exact missing.2

end Collection

/-- Only the names that are missing are reported as missing references. -/
theorem missingReferences_assemble (contributions : List Contribution) :
    ((assemble contributions).errors.filter fun issue =>
        issue.cause.kind = .missingReference) =
      (Collection.ofContributions contributions).resolution.missing.map
        fun name => ⟨.missingSchema name, none⟩ := by
  have errors : (assemble contributions).errors =
      contributions.flatMap Contribution.issues ++
        (Collection.ofContributions contributions).resolution.missing.map
          fun name => ⟨.missingSchema name, none⟩ := by
    rw [← errors_ofContributions]
    rfl
  have recorded : ((contributions.flatMap Contribution.issues).filter fun issue =>
      issue.cause.kind = .missingReference) = [] := by
    apply List.filter_eq_nil_iff.mpr
    intro issue member
    obtain ⟨contribution, -, inside⟩ := List.mem_flatMap.mp member
    simpa using Contribution.kind_ne inside
  rw [errors, List.filter_append, recorded, List.nil_append, List.filter_eq_self]
  intro issue member
  obtain ⟨name, -, rfl⟩ := List.mem_map.mp member
  rfl

/-- A build from the title and the document of another build alone gives the document
again, and its errors are the missing references of the other build. -/
theorem assemble_output_alone (contributions : List Contribution)
    (wellKeyed : ∀ contribution ∈ contributions, contribution.WellKeyed) :
    ∃ document : Members, (assemble contributions).document = .object document ∧
      (assemble [.info (Collection.ofContributions contributions).info,
        .fragment document]).document = .object document ∧
      (assemble [.info (Collection.ofContributions contributions).info,
        .fragment document]).errors.Perm
          ((assemble contributions).errors.filter fun issue =>
            issue.cause.kind = .missingReference) := by
  let collection := Collection.ofContributions contributions
  have sound : collection.Sound := sound_ofContributions wellKeyed
  let again := Collection.ofContributions
    [.info collection.info, .fragment collection.resolution.document]
  have merged : again.merged = collection.resolution.document :=
    sound.mergeMembers_output (List.nil_append collection.fragments).symm
  have barren : ∀ name ∈ collection.resolution.missing,
      offered? again.schema? again.merged name = none := by
    intro name _
    rw [offered?]
    split <;> rfl
  obtain ⟨document, missing⟩ := Collection.resolution_of_merged_eq merged barren
  have errors : (assemble [.info collection.info,
      .fragment collection.resolution.document]).errors =
        again.resolution.missing.map fun name => ⟨.missingSchema name, none⟩ :=
    List.nil_append _
  refine ⟨collection.resolution.document, rfl, congrArg Value.object document, ?_⟩
  rw [missingReferences_assemble, errors]
  exact missing.map _

/-- Two fragments that refer to schemas, the second one in the way of the first, and a model
for one of the schemas. -/
def crossingContributions : List Contribution :=
  [.fragment [("tags", .array [.whole 1, .whole 1]),
      ("paths", .object [("/a", .object [("$ref", .string "#/components/schemas/A")])])],
    .fragment [("components", .object []), ("tags", .whole 2),
      ("paths", .object [("/a", .null),
        ("/b", .object [("$ref", .string "#/components/schemas/B")])])],
    .model "A" (.object [("type", .string "object")])]

/-- The document of the crossing contributions. -/
def crossingDocument : Members :=
  seed {} ++ [("tags", .array [.whole 1, .whole 1, .whole 2]),
    ("paths", .object [("/a", .object [("$ref", .string "#/components/schemas/A")]),
      ("/b", .object [("$ref", .string "#/components/schemas/B")])]),
    ("components",
      .object [("schemas", .object [("A", .object [("type", .string "object")])])])]

theorem document_crossingContributions :
    (assemble crossingContributions).document = .object crossingDocument := by
  cbv

/-- The document with the added schema is built again where the model is gone. -/
theorem assemble_crossingDocument :
    (∀ contribution ∈ crossingContributions, contribution.WellKeyed) ∧
      (assemble [.info {}, .fragment crossingDocument]).document =
        .object crossingDocument ∧
      (assemble [.info {}, .fragment crossingDocument]).errors.Perm
        ((assemble crossingContributions).errors.filter fun issue =>
          issue.cause.kind = .missingReference) := by
  have info : (Collection.ofContributions crossingContributions).info = {} := rfl
  obtain ⟨document, built, again, errors⟩ :=
    assemble_output_alone crossingContributions (by decide)
  rw [info] at again errors
  obtain rfl : document = crossingDocument :=
    Value.object.inj (built.symm.trans document_crossingContributions)
  exact ⟨by decide, again, errors⟩

/-- A build with its own document among its contributions, at whatever place, gives the
document again, with the same errors in some order and the same warnings. -/
theorem assemble_with_own_output (before after : List Contribution)
    (wellKeyed : ∀ contribution ∈ before ++ after, contribution.WellKeyed) :
    ∃ document : Members, (assemble (before ++ after)).document = .object document ∧
      (assemble (before ++ .fragment document :: after)).document = .object document ∧
      (assemble (before ++ .fragment document :: after)).errors.Perm
        (assemble (before ++ after)).errors ∧
      (assemble (before ++ .fragment document :: after)).warnings =
        (assemble (before ++ after)).warnings := by
  let collection := Collection.ofContributions (before ++ after)
  have sound : collection.Sound := sound_ofContributions wellKeyed
  obtain ⟨early, late, fragments, inserted⟩ :=
    exists_fragments_of_insertion wellKeyed collection.resolution.document
  let again := collection.withFragments
    (early ++ normalize collection.resolution.document :: late)
  have merged : again.merged = collection.resolution.document := by
    have split : again.merged = Value.mergeAll (Value.mergeMembers
        (Value.mergeAll (seed collection.info) early)
        (normalize collection.resolution.document)) late := List.foldl_append
    rw [split, sound.mergeMembers_output fragments, sound.mergeAll_late fragments]
  have barren : ∀ name ∈ collection.resolution.missing,
      offered? again.schema? again.merged name = none := by
    intro name member
    rw [merged]
    exact collection.offered?_document_of_mem_missing member
  obtain ⟨document, missing⟩ := Collection.resolution_of_merged_eq merged barren
  have whole : assemble (before ++ .fragment collection.resolution.document :: after) =
      again.assemble := congrArg Collection.assemble inserted
  refine ⟨collection.resolution.document, rfl, ?_, ?_, ?_⟩
  · rw [whole]
    exact congrArg Value.object document
  · rw [whole]
    exact (missing.map _).append_left collection.errors
  · rw [whole]
    rfl

/-- The document can stand between the two fragments that it came from. -/
theorem assemble_crossingDocument_between :
    (∀ contribution ∈ crossingContributions.take 1 ++ crossingContributions.drop 1,
        contribution.WellKeyed) ∧
      (assemble (crossingContributions.take 1 ++
        .fragment crossingDocument :: crossingContributions.drop 1)).document =
          .object crossingDocument ∧
      (assemble (crossingContributions.take 1 ++
        .fragment crossingDocument :: crossingContributions.drop 1)).errors.Perm
          (assemble crossingContributions).errors := by
  obtain ⟨document, built, again, errors, -⟩ := assemble_with_own_output
    (crossingContributions.take 1) (crossingContributions.drop 1) (by decide)
  rw [List.take_append_drop] at built errors
  obtain rfl : document = crossingDocument :=
    Value.object.inj (built.symm.trans document_crossingContributions)
  exact ⟨by decide, again, errors⟩

end ApiAssembly.Document
