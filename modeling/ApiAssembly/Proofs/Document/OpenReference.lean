import ApiAssembly.Proofs.Document.MissingReference
import ApiAssembly.Proofs.Value.Position

/-!
# References at the positions of a document

An object refers to a schema through its member `$ref`.  A built document is searched for
such members from the top, and the search ends at the first key `$ref` on its way.  So the
references on whose way there is no such key are defined or reported, and no other reference
is the reason of a report.
-/

namespace ApiAssembly

theorem referencedName?_eq_some_iff {reference name : String} :
    referencedName? reference = some name ↔
      reference = "#/components/schemas/" ++ name ∧ name ≠ "" := by
  have base : referenceBase = "#/components/schemas/" := rfl
  rw [← base]
  unfold referencedName?
  constructor
  · intro found
    split at found
    · rename_i c rest after
      rw [Text.after?_eq_some_iff] at after
      rw [Option.some.injEq] at found
      subst found
      refine ⟨String.toList_inj.mp ?_, ?_⟩
      · rw [after, String.toList_append, String.toList_ofList]
      · simp [← String.toList_inj]
    · cases found
  · rintro ⟨rfl, named⟩
    have after : Text.after? referenceBase.toList (referenceBase ++ name).toList =
        some name.toList := by
      rw [Text.after?_eq_some_iff, String.toList_append]
    rw [after]
    cases shape : name.toList with
    | nil => exact absurd (String.toList_eq_nil_iff.mp shape) named
    | cons c rest =>
        change some (String.ofList (c :: rest)) = some name
        rw [← shape, String.ofList_toList]

namespace Value

/-- The steps lead to an object in the value that refers to a schema of the name. -/
def RefersAt (value : Value) (path : List Step) (name : String) : Prop :=
  ∃ members : Members, ⟨path, .object members⟩ ∈ value.positions ∧
    ("$ref", .string ("#/components/schemas/" ++ name)) ∈ members

theorem refersAt_iff {value : Value} {path : List Step} {name : String} :
    value.RefersAt path name ↔
      ⟨path ++ [.member "$ref"], .string ("#/components/schemas/" ++ name)⟩ ∈
        value.positions := by
  rw [mem_positions_concat]
  constructor
  · rintro ⟨members, position, inside⟩
    exact ⟨_, position, .member inside⟩
  · rintro ⟨whole, position, ⟨inside⟩⟩
    exact ⟨_, position, inside⟩

/-- The names that a value refers to are those of its references on whose way there is no key
`$ref`. -/
theorem mem_referenceNames_iff {value : Value} {name : String} :
    name ∈ value.referenceNames ↔
      name ≠ "" ∧ ∃ path, value.RefersAt path name ∧ .member "$ref" ∉ path := by
  rw [referenceNames, keyed_eq_firstUnder, List.mem_filterMap]
  constructor
  · rintro ⟨target, under, named⟩
    obtain ⟨text, string, found⟩ := Option.bind_eq_some_iff.mp named
    rw [string?_eq_some_iff] at string
    obtain ⟨rfl, nonempty⟩ := referencedName?_eq_some_iff.mp found
    obtain ⟨⟨steps, held⟩, position, same⟩ := List.mem_map.mp under
    obtain ⟨inside, first⟩ := List.mem_filter.mp position
    obtain ⟨path, whole, unhidden⟩ := isFirstUnder_iff.mp first
    refine ⟨nonempty, path, refersAt_iff.mpr ?_, unhidden⟩
    rw [← string, ← same, ← whole]
    exact inside
  · rintro ⟨nonempty, path, refers, unhidden⟩
    let target : Position :=
      ⟨path ++ [.member "$ref"], .string ("#/components/schemas/" ++ name)⟩
    have first : target.isFirstUnder "$ref" = true := isFirstUnder_iff.mpr ⟨path, rfl, unhidden⟩
    refine ⟨target.value, ?_, referencedName?_eq_some_iff.mpr ⟨rfl, nonempty⟩⟩
    exact List.mem_map_of_mem (List.mem_filter.mpr ⟨refersAt_iff.mp refers, first⟩)

end Value

namespace Document

namespace Collection

/-- A name is missing if it is not defined and the document has a reference to it on whose way
there is no key `$ref`. -/
theorem mem_missing_iff_refersAt (collection : Collection) {name : String} :
    name ∈ collection.resolution.missing ↔
      defines collection.resolution.document name = false ∧ name ≠ "" ∧
        ∃ path, (Value.object collection.resolution.document).RefersAt path name ∧
          .member "$ref" ∉ path := by
  rw [← Value.mem_referenceNames_iff, ← Value.mem_schemaReferences]
  constructor
  · intro missing
    exact ⟨collection.not_defines_of_mem_missing missing,
      collection.mem_schemaReferences_of_mem_missing missing⟩
  · rintro ⟨undefined, referred⟩
    rcases collection.defines_or_mem_missing referred with defined | missing
    · rw [undefined] at defined
      cases defined
    · exact missing

end Collection

/-- A build reports the names that are missing in the end. -/
theorem exists_reportsMissing_iff (contributions : List Contribution) {name : String} :
    (∃ issue ∈ (assemble contributions).errors, issue.reportsMissing name = true) ↔
      name ∈ (Collection.ofContributions contributions).resolution.missing := by
  let collection := Collection.ofContributions contributions
  have ordinary : ∀ issue ∈ collection.errors, issue.cause.kind ≠ .missingReference := by
    rw [errors_ofContributions]
    intro issue member
    obtain ⟨contribution, -, inside⟩ := List.mem_flatMap.mp member
    exact Contribution.kind_ne inside
  have count := countP_reportsMissing ordinary collection.nodup_missing name
  rw [← List.countP_pos_iff]
  change 0 < (collection.errors ++ _).countP _ ↔ _
  rw [count]
  split <;> simp_all [collection]

/-- A name to which an object of the built document refers is defined or reported if no key on
the way to the object is `$ref`.  A name that is not defined and is only referred to behind
such keys is not reported. -/
theorem assemble_reports_open_references (contributions : List Contribution) :
    ∃ document : Members, (assemble contributions).document = .object document ∧
      (∀ path name, name ≠ "" → (Value.object document).RefersAt path name →
        .member "$ref" ∉ path →
          name ∈ schemaNames document ∨
            ∃ issue ∈ (assemble contributions).errors, issue.reportsMissing name = true) ∧
      ∀ name, (∀ path, (Value.object document).RefersAt path name → .member "$ref" ∈ path) →
        ∀ issue ∈ (assemble contributions).errors, issue.reportsMissing name = false := by
  let collection := Collection.ofContributions contributions
  refine ⟨collection.resolution.document, rfl, ?_, ?_⟩
  · intro path name nonempty refers unhidden
    rw [exists_reportsMissing_iff, Collection.mem_missing_iff_refersAt]
    cases defined : defines collection.resolution.document name with
    | true => exact .inl (mem_schemaNames_iff.mpr defined)
    | false => exact .inr ⟨rfl, nonempty, path, refers, unhidden⟩
  · intro name hidden issue member
    cases reported : issue.reportsMissing name with
    | false => rfl
    | true =>
        have missing := (exists_reportsMissing_iff contributions).mp ⟨issue, member, reported⟩
        rw [Collection.mem_missing_iff_refersAt] at missing
        obtain ⟨-, -, path, refers, unhidden⟩ := missing
        exact absurd (hidden path refers) unhidden

/-- A schema with a property that is called `$ref`, and a reference in this property. -/
def hidingContributions : List Contribution :=
  [.fragment [("components", .object [("schemas", .object [("Holder",
    .object [("properties", .object [("$ref",
      .object [("$ref", .string "#/components/schemas/Missing")])])])])])]]

def hidingDocument : Members :=
  seed {} ++ [("components", .object [("schemas", .object [("Holder",
    .object [("properties", .object [("$ref",
      .object [("$ref", .string "#/components/schemas/Missing")])])])])])]

/-- The schema to which the property refers is neither defined nor reported. -/
theorem hidden_reference_is_left_dangling :
    (assemble hidingContributions).document = .object hidingDocument ∧
      (Value.object hidingDocument).RefersAt [.member "components", .member "schemas",
        .member "Holder", .member "properties", .member "$ref"] "Missing" ∧
      "Missing" ∉ schemaNames hidingDocument ∧
      (assemble hidingContributions).errors = [] := by
  refine ⟨rfl, ⟨[("$ref", .string "#/components/schemas/Missing")], ?_, ?_⟩,
    not_mem_schemaNames_iff.mpr rfl, rfl⟩
  · simp only [Value.mem_positions_cons, Value.mem_positions_nil, exists_eq_right']
    exact ⟨_, .member (.tail _ (.tail _ (.head _))), _, .member (.head _), _, .member (.head _),
      _, .member (.head _), .member (.head _)⟩
  · exact .head _

end Document

end ApiAssembly
