import ApiAssembly.Proofs.Document.Recording
import ApiAssembly.Proofs.Document.Rounds
import ApiAssembly.Proofs.Document.SchemaMapping

/-!
# Missing references

The resolution of a collection is where its rounds end.  There every name that the
document refers to is defined or missing and never both, and a missing name is always
one that the document refers to.  The main statement says the same of the errors of an
assembly.
-/

namespace ApiAssembly.Document

namespace Collection

variable (collection : Collection)

theorem schema?_eq_pooled? :
    collection.schema? = pooled? collection.typedefs collection.models := by
  funext name
  rw [schema?, pooled?]
  cases Entries.get? name collection.typedefs <;> rfl

/-- The rounds of a collection end, and they end in its resolution. -/
theorem settles_resolution :
    Settles collection.schema? ⟨collection.merged, []⟩ collection.resolution := by
  have stocked : ∀ name schema, collection.schema? name = some schema →
      name ∈ Entries.keys collection.typedefs ++ Entries.keys collection.models := by
    rw [schema?_eq_pooled?]
    exact fun name schema => mem_keys_of_pooled?
  exact settles_settle collection.merged stocked [] (by simp [Entries.keys])

theorem settles_pooled_resolution :
    Settles (pooled? collection.typedefs collection.models) ⟨collection.merged, []⟩
      collection.resolution := by
  rw [← schema?_eq_pooled?]
  exact collection.settles_resolution

theorem exists_handledNames : ∃ names,
    collection.resolution = afterHandling collection.schema? collection.merged names ∧
      HandledNames collection.schema? collection.merged names :=
  collection.settles_resolution.exists_afterHandling rfl handledNames_nil

/-- What a document refers to in the end is defined or missing. -/
theorem defines_or_mem_missing {name : String}
    (referred : name ∈ (Value.object collection.resolution.document).schemaReferences) :
    defines collection.resolution.document name = true ∨
      name ∈ collection.resolution.missing := by
  have nothing := collection.settles_resolution.needed_eq_nil
  rw [Resolution.needed, List.filter_eq_nil_iff] at nothing
  have settled := nothing name referred
  simp only [Bool.and_eq_true, Bool.not_eq_true', List.contains_eq_mem, not_and,
    decide_eq_false_iff_not, not_not] at settled
  cases defined : defines collection.resolution.document name with
  | true => exact .inl rfl
  | false => exact .inr (settled defined)

theorem nodup_missing : collection.resolution.missing.Nodup := by
  obtain ⟨names, final, handled⟩ := collection.exists_handledNames
  rw [final, missing_afterHandling]
  exact handled.distinct.filter _

theorem not_defines_of_mem_missing {name : String}
    (missing : name ∈ collection.resolution.missing) :
    defines collection.resolution.document name = false := by
  obtain ⟨names, final, handled⟩ := collection.exists_handledNames
  rw [final, missing_afterHandling, List.mem_filter] at missing
  rw [final, defines_afterHandling, handled.undefined name missing.1]
  simpa using fun _ => missing.2

theorem mem_schemaReferences_of_mem_missing {name : String}
    (missing : name ∈ collection.resolution.missing) :
    name ∈ (Value.object collection.resolution.document).schemaReferences := by
  obtain ⟨names, final, handled⟩ := collection.exists_handledNames
  rw [final, missing_afterHandling, List.mem_filter] at missing
  rw [final, Value.mem_schemaReferences]
  exact handled.referred name missing.1

end Collection

/-- An issue is the missing-reference error of a name, with the words of reports. -/
def Issue.reportsMissing (name : String) (issue : Issue) : Bool :=
  issue.cause.kind = .missingReference && issue.cause.message = "type " ++ name ++ " not-found"

theorem reportsMissing_missingSchema {name other : String} {source : Option String} :
    Issue.reportsMissing name ⟨.missingSchema other, source⟩ = true ↔ other = name := by
  have kind : (IssueCause.missingSchema other).kind = .missingReference := rfl
  have message : (IssueCause.missingSchema other).message = "type " ++ other ++ " not-found" :=
    rfl
  rw [Issue.reportsMissing, kind, message, Bool.and_eq_true, decide_eq_true_eq,
    decide_eq_true_eq]
  constructor
  · rintro ⟨-, same⟩
    have characters := congrArg String.toList same
    simpa only [String.toList_append, List.append_cancel_right_eq, List.append_cancel_left_eq,
      String.toList_inj] using characters
  · rintro rfl
    exact ⟨rfl, rfl⟩

/-- A name is reported once where it is among the missing ones. -/
theorem countP_reportsMissing {recorded : List Issue} {missing : List String}
    (ordinary : ∀ issue ∈ recorded, issue.cause.kind ≠ .missingReference)
    (distinct : missing.Nodup) (name : String) :
    (recorded ++ missing.map fun absent => (⟨.missingSchema absent, none⟩ : Issue)).countP
      (Issue.reportsMissing name) = if name ∈ missing then 1 else 0 := by
  have early : recorded.countP (Issue.reportsMissing name) = 0 := by
    apply List.countP_eq_zero.mpr
    intro issue member
    simp [Issue.reportsMissing, ordinary issue member]
  have late : (missing.map fun absent => (⟨.missingSchema absent, none⟩ : Issue)).countP
      (Issue.reportsMissing name) = missing.count name := by
    rw [List.countP_map, List.count]
    apply List.countP_congr
    intro absent _
    simp [reportsMissing_missingSchema]
  rw [List.countP_append, early, late, Nat.zero_add]
  exact distinct.count

/-- The rounds of a build end.  A name to which the built document refers is defined in
it or the subject of one missing-reference error, and not both; every missing-reference
error has such a subject; and these errors stand behind those that the contributions
recorded, which are in the order of the contributions. -/
theorem assemble_settles_references (contributions : List Contribution) :
    ∃ final : Resolution,
      Settles (pooled? (Collection.ofContributions contributions).typedefs
          (Collection.ofContributions contributions).models)
        ⟨(Collection.ofContributions contributions).merged, []⟩ final ∧
      (assemble contributions).document = .object final.document ∧
      (assemble contributions).errors =
        contributions.flatMap Contribution.issues ++
          final.missing.map (fun name => ⟨.missingSchema name, none⟩) ∧
      (∀ issue ∈ contributions.flatMap Contribution.issues,
        issue.cause.kind ≠ .missingReference) ∧
      (∀ name ∈ (assemble contributions).document.schemaReferences,
        (assemble contributions).errors.countP (Issue.reportsMissing name) =
          if name ∈ schemaNames final.document then 0 else 1) ∧
      (∀ issue ∈ (assemble contributions).errors, issue.cause.kind = .missingReference →
        ∃ name ∈ (assemble contributions).document.schemaReferences,
          issue.reportsMissing name = true ∧ issue.source = none ∧
            name ∉ schemaNames final.document) := by
  let collection := Collection.ofContributions contributions
  have recorded := errors_ofContributions contributions
  have ordinary : ∀ issue ∈ contributions.flatMap Contribution.issues,
      issue.cause.kind ≠ .missingReference := by
    intro issue member
    obtain ⟨contribution, _, issueMember⟩ := List.mem_flatMap.mp member
    exact Contribution.kind_ne issueMember
  have errors : (assemble contributions).errors =
      contributions.flatMap Contribution.issues ++
        collection.resolution.missing.map fun name => ⟨.missingSchema name, none⟩ := by
    rw [← recorded]
    rfl
  refine ⟨collection.resolution, collection.settles_pooled_resolution, rfl, errors, ordinary,
    ?_, ?_⟩
  · intro name referred
    rw [errors, countP_reportsMissing ordinary collection.nodup_missing]
    rcases collection.defines_or_mem_missing referred with defined | missing
    · have present : name ∉ collection.resolution.missing := by
        intro missing
        rw [collection.not_defines_of_mem_missing missing] at defined
        cases defined
      rw [if_neg present, if_pos (mem_schemaNames_iff.mpr defined)]
    · have undefined := not_mem_schemaNames_iff.mpr (collection.not_defines_of_mem_missing missing)
      rw [if_pos missing, if_neg undefined]
  · intro issue member kind
    rw [errors, List.mem_append] at member
    rcases member with early | late
    · exact absurd kind (ordinary issue early)
    · obtain ⟨name, missing, rfl⟩ := List.mem_map.mp late
      exact ⟨name, collection.mem_schemaReferences_of_mem_missing missing,
        reportsMissing_missingSchema.mpr rfl, rfl,
        not_mem_schemaNames_iff.mpr (collection.not_defines_of_mem_missing missing)⟩

end ApiAssembly.Document
