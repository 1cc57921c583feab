import ApiAssembly.Proofs.Comment.Extraction
import ApiAssembly.Proofs.Document.Exchange
import ApiAssembly.Proofs.Typedef.Data
import ApiAssembly.Proofs.Yaml.Fitting

/-!
# Documents as data

What contributions bring to a document is data: keys are distinct at every depth and numbers
fit.  Normalizing, merging and providing schemas bring nothing new, so a built document is data
as well.
-/

namespace ApiAssembly.Document

open Entries (forall_mem_put)

/-- Ready fragments and schemas are data, and a text with comments has fewer characters than
memory has addresses.  What is read from a text is data anyway. -/
def Contribution.IsData : Contribution → Prop
  | .fragment members => (Value.object members).IsData
  | .model _ schema => schema.IsData
  | .comments text => text.length < 2 ^ 64
  | .info _ | .yaml _ => True

instance : DecidablePred Contribution.IsData
  | .fragment members => inferInstanceAs (Decidable (Value.object members).IsData)
  | .model _ schema => inferInstanceAs (Decidable schema.IsData)
  | .comments text => inferInstanceAs (Decidable (text.length < 2 ^ 64))
  | .info _ | .yaml _ => isTrue trivial

section Effects

/-- The fragment or schema that an effect brings is data. -/
def Effect.IsData : Effect → Prop
  | .add members => (Value.object members).IsData
  | .define _ schema => schema.IsData
  | .record _ | .warn _ => True

theorem Effect.isData_ofYaml (text : String) : ∀ effect ∈ ofYaml text, effect.IsData := by
  rw [ofYaml]
  split
  next read => simpa [IsData] using Yaml.isData_of_read? read
  next => simp
  next => simp [IsData]
  next => simp [IsData]

theorem Effect.isData_ofEmbedded (text : String) : ∀ effect ∈ ofEmbedded text, effect.IsData := by
  rw [ofEmbedded]
  split
  next => simp
  next read => simpa [IsData] using Yaml.isData_of_read? read
  next => simp [IsData]
  next => simp [IsData]

theorem Effect.isData_ofDefinition {block : Comment.Block} (few : block.tags.length < 2 ^ 64) :
    ∀ effect ∈ ofDefinition block, effect.IsData := by
  rw [ofDefinition]
  split
  next => simp
  next => simp [IsData]
  next defined translated =>
    intro effect member
    simp only [ofTypedef, List.mem_append, List.mem_map, List.mem_singleton] at member
    rcases member with (⟨_, -, rfl⟩ | ⟨_, -, rfl⟩) | rfl
    · trivial
    · trivial
    · exact Typedef.isData_of_ofBlock? few translated

theorem Effect.isData_ofBlock {block : Comment.Block} (few : block.tags.length < 2 ^ 64) :
    ∀ effect ∈ ofBlock block, effect.IsData := by
  intro effect member
  rw [ofBlock] at member
  split at member
  · rcases List.mem_append.mp member with embedded | defined
    · obtain ⟨text, -, inside⟩ := List.mem_flatMap.mp embedded
      exact isData_ofEmbedded text effect inside
    · exact isData_ofDefinition few effect defined
  · rw [List.mem_singleton.mp member]
    trivial

theorem Contribution.isData_effects {contribution : Contribution} (data : contribution.IsData) :
    ∀ effect ∈ contribution.effects, effect.IsData := by
  cases contribution with
  | info | model => simp [effects]
  | fragment members => exact List.forall_mem_singleton.mpr data
  | yaml text => exact Effect.isData_ofYaml text
  | comments text =>
      intro effect member
      obtain ⟨block, among, inside⟩ := List.mem_flatMap.mp member
      have few : block.tags.length < 2 ^ 64 := by
        refine (Comment.length_tags_le among).trans_lt ?_
        rwa [String.length_toList]
      exact Effect.isData_ofBlock few effect inside

end Effects

section Collections

theorem isData_keepSections {members : Members} (data : (Value.object members).IsData)
    (sections : List String) : (Value.object (keepSections sections members)).IsData := by
  refine ⟨wellKeyed_keepSections data.wellKeyed sections, .object ?_⟩
  exact fun member inside => data.fit.member (List.mem_of_mem_filter inside)

theorem isData_normalize {fragment : Members} (data : (Value.object fragment).IsData) :
    (Value.object (normalize fragment)).IsData := by
  refine (isData_keepSections data mainSections).update ?_ "components"
  intro value own
  cases value with
  | object components => exact isData_keepSections own componentSections
  | _ => exact own

/-- Everything that has been collected for a document is data. -/
structure Collection.IsData (collection : Collection) : Prop where
  fragments : ∀ fragment ∈ collection.fragments, (Value.object fragment).IsData
  typedefs : ∀ member ∈ collection.typedefs, member.2.IsData
  models : ∀ member ∈ collection.models, member.2.IsData

theorem Collection.IsData.perform {collection : Collection} (data : collection.IsData)
    (source : String) {effect : Effect} (own : effect.IsData) :
    (Effect.perform source collection effect).IsData := by
  cases effect with
  | add members =>
      refine ⟨fun fragment member => ?_, data.typedefs, data.models⟩
      rcases List.mem_append.mp member with before | last
      · exact data.fragments fragment before
      · rw [List.mem_singleton.mp last]
        exact isData_normalize own
  | define name schema => exact ⟨data.fragments, forall_mem_put data.typedefs own, data.models⟩
  | record cause => exact ⟨data.fragments, data.typedefs, data.models⟩
  | warn cause => exact ⟨data.fragments, data.typedefs, data.models⟩

theorem Collection.IsData.performAll {collection : Collection} (data : collection.IsData)
    (source : String) {effects : List Effect} (each : ∀ effect ∈ effects, effect.IsData) :
    (Effect.performAll source effects collection).IsData := by
  induction effects generalizing collection with
  | nil => exact data
  | cons effect effects ih =>
      rw [List.forall_mem_cons] at each
      exact ih (data.perform source each.1) each.2

theorem Collection.IsData.add {collection : Collection} (data : collection.IsData)
    {contribution : Contribution} (own : contribution.IsData) :
    (collection.add contribution).IsData := by
  have performed := data.performAll contribution.source (Contribution.isData_effects own)
  rw [add_eq_performAll]
  refine ⟨performed.fragments, performed.typedefs, ?_⟩
  cases contribution with
  | model name schema => exact forall_mem_put data.models own
  | _ => exact data.models

theorem isData_ofContributions {contributions : List Contribution}
    (each : ∀ contribution ∈ contributions, contribution.IsData) :
    (Collection.ofContributions contributions).IsData := by
  induction contributions using List.reverseRecOn with
  | nil => exact ⟨by simp, by simp, by simp⟩
  | append_singleton contributions last ih =>
      rw [List.forall_mem_append, List.forall_mem_singleton] at each
      rw [Collection.ofContributions_concat]
      exact (ih each.1).add each.2

end Collections

section Resolutions

theorem isData_seed (info : Info) : (Value.object (seed info)).IsData := by
  refine ⟨wellKeyed_seed info, ?_⟩
  have texts : ∀ text : String, (Value.string text).NumbersFit := .string
  exact .object (by simp [seed, Info.toValue, texts, Value.NumbersFit.object])

theorem Collection.IsData.merged {collection : Collection} (data : collection.IsData) :
    (Value.object collection.merged).IsData :=
  (isData_seed collection.info).mergeAll data.fragments

theorem Collection.IsData.schema {collection : Collection} (data : collection.IsData)
    {name : String} {schema : Value} (found : collection.schema? name = some schema) :
    schema.IsData := by
  rcases Option.or_eq_some_iff.mp found with defined | ⟨-, modelled⟩
  · exact data.typedefs _ (Entries.mem_of_get? defined)
  · exact data.models _ (Entries.mem_of_get? modelled)

theorem isData_openSchemas {document : Members} (data : (Value.object document).IsData) :
    (Value.object (openSchemas document)).IsData := by
  have noSchemas : (Value.object []).IsData := Value.isData_object_iff.mpr ⟨by simp, by simp⟩
  rw [openSchemas]
  split
  · refine data.update (fun value own => ?_) "components"
    cases value with
    | object components =>
        rw [openComponents]
        split
        · exact own
        next closed =>
          rw [Entries.contains_iff] at closed
          rw [← Entries.put_of_not_mem closed]
          exact own.put noSchemas "schemas"
    | _ => exact own
  next closed =>
    rw [Entries.contains_iff] at closed
    rw [← Entries.put_of_not_mem closed]
    exact data.put (Value.isData_object_iff.mpr ⟨by simp, by simpa using noSchemas⟩) "components"

theorem isData_install {document : Members} (data : (Value.object document).IsData)
    {schema : Value} (own : schema.IsData) (name : String) :
    (Value.object (install name schema document)).IsData := by
  refine data.update (fun value inside => ?_) "components"
  cases value with
  | object components =>
      refine inside.update (fun value schemas => ?_) "schemas"
      cases value with
      | object members => exact schemas.put own name
      | _ => exact schemas
  | _ => exact inside

variable {pool : String → Option Value}

theorem isData_provide (offers : ∀ name schema, pool name = some schema → schema.IsData)
    {resolution : Resolution} (data : (Value.object resolution.document).IsData) (name : String) :
    (Value.object (resolution.provide pool name).document).IsData := by
  rw [Resolution.provide]
  split
  next schema _ found _ =>
    exact isData_install (isData_openSchemas data) (offers name schema found) name
  next => exact isData_openSchemas data

theorem isData_foldl_provide (offers : ∀ name schema, pool name = some schema → schema.IsData)
    {resolution : Resolution} (data : (Value.object resolution.document).IsData)
    (names : List String) :
    (Value.object (names.foldl (Resolution.provide pool) resolution).document).IsData := by
  induction names generalizing resolution with
  | nil => exact data
  | cons name names ih => exact ih (isData_provide offers data name)

theorem isData_settle (offers : ∀ name schema, pool name = some schema → schema.IsData)
    (rounds : Nat) {resolution : Resolution} (data : (Value.object resolution.document).IsData) :
    (Value.object (Resolution.settle pool rounds resolution).document).IsData := by
  induction rounds generalizing resolution with
  | zero => exact data
  | succ rounds ih =>
      rw [Resolution.settle]
      split
      · exact data
      · exact ih (isData_foldl_provide offers data _)

/-- A document that is built from data is data. -/
theorem isData_assemble {contributions : List Contribution}
    (each : ∀ contribution ∈ contributions, contribution.IsData) :
    (assemble contributions).document.IsData := by
  have data := isData_ofContributions each
  exact isData_settle (fun _ _ found => data.schema found) _ data.merged

end Resolutions

end ApiAssembly.Document
