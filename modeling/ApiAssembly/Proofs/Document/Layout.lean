import ApiAssembly.Proofs.Document.Contributing
import ApiAssembly.Proofs.Document.Effect

/-!
# The layout of a built document

Whatever comes in, a built document begins with the version of the format and with the
title and version that were stated last, and behind them it has nothing but the sections
to which fragments contribute.
-/

namespace ApiAssembly.Document

def Contribution.info? : Contribution → Option Info
  | .info stated => some stated
  | .yaml _ | .comments _ | .fragment _ | .model _ _ => none

/-- The title and version that were stated last, or the usual ones. -/
def statedInfo (contributions : List Contribution) : Info :=
  (contributions.filterMap Contribution.info?).getLast?.getD {}

namespace Effect

@[simp]
theorem info_perform (source : String) (collection : Collection) (effect : Effect) :
    (perform source collection effect).info = collection.info := by
  cases effect <;> rfl

@[simp]
theorem info_performAll (source : String) (effects : List Effect) (collection : Collection) :
    (performAll source effects collection).info = collection.info := by
  induction effects generalizing collection with
  | nil => rfl
  | cons effect effects ih => exact (ih _).trans (info_perform source collection effect)

end Effect

theorem info_add (collection : Collection) (contribution : Contribution) :
    (collection.add contribution).info = contribution.info?.getD collection.info := by
  cases contribution with
  | info | fragment | model => rfl
  | yaml text =>
      rw [Collection.add, Collection.addYaml_eq, Effect.info_performAll]
      rfl
  | comments text =>
      rw [Collection.add, Collection.addComments_eq, Effect.info_performAll]
      rfl

theorem info_ofContributions (contributions : List Contribution) :
    (Collection.ofContributions contributions).info = statedInfo contributions := by
  induction contributions using List.reverseRecOn with
  | nil => rfl
  | append_singleton contributions last ih =>
      rw [Collection.ofContributions_concat, info_add, ih, statedInfo, statedInfo,
        List.filterMap_append]
      cases stated : last.info? <;> simp [stated]

/-- A built document is the version of the format, the stated title and version, and sections:
the keys behind the two are main sections, and the keys of components are their sections. -/
theorem assemble_layout (contributions : List Contribution)
    (wellKeyed : ∀ contribution ∈ contributions, contribution.WellKeyed) :
    ∃ sections : Members,
      (assemble contributions).document = .object (
        ("openapi", .string "3.0.0") ::
        ("info", .object [("title", .string (statedInfo contributions).title),
          ("version", .string (statedInfo contributions).version)]) :: sections) ∧
      (∀ key ∈ Entries.keys sections, key ∈ mainSections) ∧
      ∀ components, Entries.get? "components" sections = some (.object components) →
        ∀ key ∈ Entries.keys components, key ∈ componentSections := by
  let collection := Collection.ofContributions contributions
  have sound : collection.Sound := sound_ofContributions wellKeyed
  have sectioned := sectioned_normalize collection.resolution.document
  refine ⟨normalize collection.resolution.document, ?_, sectioned.main, sectioned.components⟩
  rw [← info_ofContributions]
  exact congrArg Value.object sound.document_eq

/-- Fragments with foreign and seeded keys, with components of several kinds, and a title that
is stated twice. -/
def foreignContributions : List Contribution :=
  [.info ⟨"Draft", "0.1"⟩,
    .fragment [("openapi", .whole 2), ("info", .null), ("host", .string "h"),
      ("components", .object [("schemas", .object []), ("extra", .null)])],
    .info ⟨"Shop", "2.0"⟩,
    .fragment [("components", .array [.whole 1]), ("tags", .object [("info", .null)])],
    .fragment [("components", .object [("openapi", .null), ("links", .bool true)])]]

/-- Nothing foreign is in the document of the foreign contributions. -/
theorem document_foreignContributions :
    (∀ contribution ∈ foreignContributions, contribution.WellKeyed) ∧
      ∃ sections : Members,
        (assemble foreignContributions).document = .object (
          ("openapi", .string "3.0.0") ::
          ("info", .object [("title", .string "Shop"), ("version", .string "2.0")]) ::
            sections) ∧
        (∀ key ∈ Entries.keys sections, key ∈ mainSections) ∧
        ∀ components, Entries.get? "components" sections = some (.object components) →
          ∀ key ∈ Entries.keys components, key ∈ componentSections := by
  have wellKeyed : ∀ contribution ∈ foreignContributions, contribution.WellKeyed := by decide
  have stated : statedInfo foreignContributions = ⟨"Shop", "2.0"⟩ := rfl
  obtain ⟨sections, document, known⟩ := assemble_layout foreignContributions wellKeyed
  rw [stated] at document
  exact ⟨wellKeyed, sections, document, known⟩

end ApiAssembly.Document
