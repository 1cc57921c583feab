import ApiAssembly.Proofs.Document.Layout
import ApiAssembly.Proofs.Document.MissingReference

/-!
# Exchanging contributions

A collection consists of the fragments, definitions, models and issues of its contributions
in their order, and of the title that was stated last.  Definitions and models are only
looked up by name, so a build depends on the order of contributions that compete for
something, and on no other.  The main statement says that two neighbours that do not compete
can be exchanged, and that a model can be moved past everything but models of its name.
-/

namespace ApiAssembly.Document

/-- A run of steps that each put something behind what is there puts it all there, in
order. -/
theorem foldl_eq_append_flatMap {σ α β : Type} {view : σ → List β} {step : σ → α → σ}
    {part : α → List β}
    (each : ∀ state item, view (step state item) = view state ++ part item)
    (items : List α) (state : σ) :
    view (items.foldl step state) = view state ++ items.flatMap part := by
  induction items generalizing state with
  | nil => simp
  | cons item items ih => rw [List.foldl_cons, ih, each, List.flatMap_cons, List.append_assoc]

namespace Effect

def fragments : Effect → List Members
  | .add members => [normalize members]
  | .define .. | .record _ | .warn _ => []

def definitions : Effect → List (String × Value)
  | .define name schema => [(name, schema)]
  | .add _ | .record _ | .warn _ => []

def warnings (source : String) : Effect → List Issue
  | .warn cause => [⟨cause, some source⟩]
  | .add _ | .define .. | .record _ => []

variable (source : String) (effects : List Effect) (collection : Collection)

theorem fragments_performAll :
    (performAll source effects collection).fragments =
      collection.fragments ++ effects.flatMap fragments := by
  apply foldl_eq_append_flatMap
  intro present effect
  cases effect <;> simp [perform, fragments, Collection.addFragment, Collection.record,
    Collection.warn]

theorem warnings_performAll :
    (performAll source effects collection).warnings =
      collection.warnings ++ effects.flatMap (warnings source) := by
  apply foldl_eq_append_flatMap
  intro present effect
  cases effect <;> simp [perform, warnings, Collection.addFragment, Collection.record,
    Collection.warn]

theorem typedefs_performAll :
    (performAll source effects collection).typedefs =
      Entries.putAll (effects.flatMap definitions) collection.typedefs := by
  induction effects generalizing collection with
  | nil => rfl
  | cons effect effects ih =>
      rw [List.flatMap_cons, Entries.putAll_append]
      cases effect <;> exact ih _

@[simp]
theorem models_performAll :
    (performAll source effects collection).models = collection.models := by
  induction effects generalizing collection with
  | nil => rfl
  | cons effect effects ih => cases effect <;> exact ih _

end Effect

namespace Contribution

/-- The effects of reading a contribution. -/
def effects : Contribution → List Effect
  | .yaml text => Effect.ofYaml text
  | .comments text => (Comment.parse text.toList).flatMap Effect.ofBlock
  | .fragment members => [.add members]
  | .info _ | .model .. => []

/-- The source of the issues that a contribution records. -/
def source : Contribution → String
  | .yaml text | .comments text => text
  | .info _ | .fragment _ | .model .. => ""

def models : Contribution → List (String × Value)
  | .model name schema => [(name, schema)]
  | .info _ | .yaml _ | .comments _ | .fragment _ => []

def fragments (contribution : Contribution) : List Members :=
  contribution.effects.flatMap Effect.fragments

def definitions (contribution : Contribution) : List (String × Value) :=
  contribution.effects.flatMap Effect.definitions

def warnings (contribution : Contribution) : List Issue :=
  contribution.effects.flatMap (Effect.warnings contribution.source)

end Contribution

section Parts

variable (collection : Collection) (contribution : Contribution)

/-- Effects concern neither the title nor the models. -/
theorem performAll_eq_self (source : String) (effects : List Effect) :
    { Effect.performAll source effects collection with
      info := collection.info
      models := collection.models } = Effect.performAll source effects collection := by
  rw [← Effect.info_performAll source effects collection,
    ← Effect.models_performAll source effects collection]

/-- What a contribution adds beside its title and its model are its effects. -/
theorem add_eq_performAll :
    collection.add contribution =
      { Effect.performAll contribution.source contribution.effects collection with
        info := contribution.info?.getD collection.info
        models := Entries.putAll contribution.models collection.models } := by
  cases contribution with
  | info | fragment | model => rfl
  | yaml text =>
      rw [Collection.add, Collection.addYaml_eq]
      exact (performAll_eq_self collection text _).symm
  | comments text =>
      rw [Collection.add, Collection.addComments_eq]
      exact (performAll_eq_self collection text _).symm

theorem fragments_add :
    (collection.add contribution).fragments = collection.fragments ++ contribution.fragments := by
  rw [add_eq_performAll]
  exact Effect.fragments_performAll _ _ _

theorem warnings_add :
    (collection.add contribution).warnings = collection.warnings ++ contribution.warnings := by
  rw [add_eq_performAll]
  exact Effect.warnings_performAll _ _ _

theorem typedefs_add :
    (collection.add contribution).typedefs =
      Entries.putAll contribution.definitions collection.typedefs := by
  rw [add_eq_performAll]
  exact Effect.typedefs_performAll _ _ _

theorem models_add :
    (collection.add contribution).models =
      Entries.putAll contribution.models collection.models := by
  rw [add_eq_performAll]

end Parts

section Whole

variable (contributions : List Contribution)

theorem fragments_ofContributions :
    (Collection.ofContributions contributions).fragments =
      contributions.flatMap Contribution.fragments :=
  @foldl_eq_append_flatMap _ _ _ Collection.fragments _ _ fragments_add contributions {}

theorem warnings_ofContributions :
    (Collection.ofContributions contributions).warnings =
      contributions.flatMap Contribution.warnings :=
  @foldl_eq_append_flatMap _ _ _ Collection.warnings _ _ warnings_add contributions {}

theorem typedefs_ofContributions :
    (Collection.ofContributions contributions).typedefs =
      Entries.putAll (contributions.flatMap Contribution.definitions) [] := by
  induction contributions using List.reverseRecOn with
  | nil => rfl
  | append_singleton contributions last ih =>
      rw [Collection.ofContributions_concat, typedefs_add, ih, List.flatMap_append,
        Entries.putAll_append, List.flatMap_singleton]

theorem models_ofContributions :
    (Collection.ofContributions contributions).models =
      Entries.putAll (contributions.flatMap Contribution.models) [] := by
  induction contributions using List.reverseRecOn with
  | nil => rfl
  | append_singleton contributions last ih =>
      rw [Collection.ofContributions_concat, models_add, ih, List.flatMap_append,
        Entries.putAll_append, List.flatMap_singleton]

end Whole

/-- A build depends on the title, on the fragments in their order, and on the schemas that
are found by name. -/
theorem Collection.resolution_congr {left right : Collection} (info : left.info = right.info)
    (fragments : left.fragments = right.fragments)
    (schemas : ∀ name, left.schema? name = right.schema? name) :
    left.resolution = right.resolution := by
  have rounds := left.settles_resolution
  rw [funext schemas, Collection.merged, info, fragments] at rounds
  exact rounds.unique right.settles_resolution

/-- A contribution can have fragments: it is one, or it is a text with a fragment in a tag of
a comment without faults. -/
inductive Contribution.BearsFragments : Contribution → Prop where
  | yaml (text : String) : BearsFragments (.yaml text)
  | fragment (members : Members) : BearsFragments (.fragment members)
  | comments {text : String} {block : Comment.Block} {tag : Comment.Tag}
      (found : block ∈ Comment.parse text.toList) (faultless : block.problems = [])
      (tagged : tag ∈ block.tags) (embeds : tag.title = "openapi") :
      BearsFragments (.comments text)

/-- A comment without faults in the text of a contribution defines a type of the given name. -/
inductive Contribution.DefinesType (name : String) : Contribution → Prop where
  | comments {text : String} {block : Comment.Block} {defined : Typedef}
      (found : block ∈ Comment.parse text.toList) (faultless : block.problems = [])
      (translated : Typedef.ofBlock? block = some (.ok defined)) (named : defined.name = name) :
      DefinesType name (.comments text)

/-- Two contributions of which the order can count. -/
inductive Competes : Contribution → Contribution → Prop where
  | fragments {first second : Contribution} (firstBears : first.BearsFragments)
      (secondBears : second.BearsFragments) : Competes first second
  | types {first second : Contribution} {name : String} (firstDefines : first.DefinesType name)
      (secondDefines : second.DefinesType name) : Competes first second
  | models (name : String) (first second : Value) :
      Competes (.model name first) (.model name second)
  | info (first second : Info) : Competes (.info first) (.info second)

theorem Effect.fragments_ofDefinition (block : Comment.Block) :
    (Effect.ofDefinition block).flatMap Effect.fragments = [] := by
  unfold Effect.ofDefinition
  split
  · rfl
  · rfl
  · simp [Effect.ofTypedef, Effect.fragments, List.flatMap_append, List.flatMap_map]

theorem Contribution.fragments_eq_nil {contribution : Contribution}
    (bearsNone : ¬ contribution.BearsFragments) : contribution.fragments = [] := by
  cases contribution with
  | info | model => rfl
  | yaml text => exact absurd (.yaml text) bearsNone
  | fragment members => exact absurd (.fragment members) bearsNone
  | comments text =>
      rw [fragments, effects, List.flatMap_assoc, List.flatMap_eq_nil_iff]
      intro block found
      rw [Effect.ofBlock]
      split
      · rename_i faultless
        have noTexts : Collection.embeddedTexts block = [] := by
          rw [Collection.embeddedTexts, List.map_eq_nil_iff, List.filter_eq_nil_iff]
          intro tag tagged embeds
          exact bearsNone (.comments found faultless tagged (of_decide_eq_true embeds))
        rw [noTexts, List.flatMap_nil, List.nil_append, Effect.fragments_ofDefinition]
      · rfl

theorem Effect.definitions_ofEmbedded (text : String) :
    (Effect.ofEmbedded text).flatMap Effect.definitions = [] := by
  unfold Effect.ofEmbedded
  split <;> rfl

theorem Effect.definitions_ofTypedef (defined : Typedef) :
    (Effect.ofTypedef defined).flatMap Effect.definitions =
      [(defined.name, defined.schema.toValue)] := by
  have problems : defined.problems.flatMap (fun _ => ([] : List (String × Value))) = [] := by
    simp
  have warning : defined.rootTypeError.toList.flatMap
      (fun _ => ([] : List (String × Value))) = [] := by
    simp
  simp only [Effect.ofTypedef, List.flatMap_append, List.flatMap_map, Effect.definitions, problems,
    warning, List.flatMap_singleton, List.nil_append]

/-- A name under which a contribution has a definition is that of a type in its comments. -/
theorem Contribution.definesType_of_mem {contribution : Contribution} {name : String}
    (member : name ∈ Entries.keys contribution.definitions) : contribution.DefinesType name := by
  cases contribution with
  | info | fragment | model => simp [definitions, effects, Effect.definitions] at member
  | yaml text =>
      have nothing : (Effect.ofYaml text).flatMap Effect.definitions = [] := by
        unfold Effect.ofYaml
        split <;> rfl
      simp [definitions, effects, nothing] at member
  | comments text =>
      rw [definitions, effects, List.flatMap_assoc, Entries.keys, List.map_flatMap,
        List.mem_flatMap] at member
      obtain ⟨block, found, inside⟩ := member
      rw [Effect.ofBlock] at inside
      split at inside
      · rename_i faultless
        have noTexts : ((Collection.embeddedTexts block).flatMap Effect.ofEmbedded).flatMap
            Effect.definitions = [] := by
          rw [List.flatMap_assoc, List.flatMap_eq_nil_iff]
          exact fun embedded _ => Effect.definitions_ofEmbedded embedded
        rw [List.flatMap_append, noTexts, List.nil_append, Effect.ofDefinition] at inside
        split at inside
        · cases inside
        · cases inside
        · rename_i defined translated
          rw [Effect.definitions_ofTypedef] at inside
          exact .comments found faultless translated (List.mem_singleton.mp inside).symm
      · cases inside

section Exchange

variable {first second : Contribution}

theorem fragments_comm (independent : ¬ Competes first second) :
    first.fragments ++ second.fragments = second.fragments ++ first.fragments := by
  by_cases bears : first.BearsFragments
  · have others : ¬ second.BearsFragments := fun also => independent (.fragments bears also)
    rw [Contribution.fragments_eq_nil others, List.append_nil, List.nil_append]
  · rw [Contribution.fragments_eq_nil bears, List.append_nil, List.nil_append]

theorem definitions_apart (independent : ¬ Competes first second) :
    ∀ name ∈ Entries.keys first.definitions, name ∉ Entries.keys second.definitions :=
  fun _ inFirst inSecond => independent
    (.types (Contribution.definesType_of_mem inFirst) (Contribution.definesType_of_mem inSecond))

theorem models_apart (independent : ¬ Competes first second) :
    ∀ name ∈ Entries.keys first.models, name ∉ Entries.keys second.models := by
  intro name inFirst inSecond
  cases first with
  | model firstName firstSchema =>
      cases second with
      | model secondName secondSchema =>
          obtain rfl := List.mem_singleton.mp inFirst
          obtain rfl := List.mem_singleton.mp inSecond
          exact independent (.models _ _ _)
      | _ => cases inSecond
  | _ => cases inFirst

theorem statedInfo_comm (independent : ¬ Competes first second)
    (before after : List Contribution) :
    statedInfo (before ++ first :: second :: after) =
      statedInfo (before ++ second :: first :: after) := by
  have exchange : [first, second].filterMap Contribution.info? =
      [second, first].filterMap Contribution.info? := by
    cases first with
    | info stated =>
        cases second with
        | info other => exact absurd (.info stated other) independent
        | _ => rfl
    | _ => cases second <;> rfl
  have split : ∀ one other : Contribution, (before ++ one :: other :: after).filterMap
      Contribution.info? = before.filterMap Contribution.info? ++
        [one, other].filterMap Contribution.info? ++ after.filterMap Contribution.info? := by
    intro one other
    rw [← List.filterMap_append, ← List.filterMap_append, List.append_assoc]
    rfl
  rw [statedInfo, statedInfo, split, split, exchange]

/-- Two neighbours that do not compete give the same document and miss the same names in
either order. -/
theorem resolution_comm (independent : ¬ Competes first second)
    (before after : List Contribution) :
    (Collection.ofContributions (before ++ first :: second :: after)).resolution =
      (Collection.ofContributions (before ++ second :: first :: after)).resolution := by
  apply Collection.resolution_congr
  · rw [info_ofContributions, info_ofContributions]
    exact statedInfo_comm independent before after
  · simp only [fragments_ofContributions, List.flatMap_append, List.flatMap_cons]
    rw [← List.append_assoc first.fragments, fragments_comm independent, List.append_assoc]
  · intro name
    simp only [Collection.schema?, typedefs_ofContributions, models_ofContributions,
      List.flatMap_append, List.flatMap_cons]
    rw [Entries.get?_putAll_comm (definitions_apart independent),
      Entries.get?_putAll_comm (models_apart independent)]

end Exchange

/-- Neighbours in a list can change places in a list of parts. -/
theorem perm_flatMap_exchange {α β : Type} (part : α → List β) (before after : List α)
    (first second : α) :
    ((before ++ first :: second :: after).flatMap part).Perm
      ((before ++ second :: first :: after).flatMap part) :=
  ((List.Perm.swap second first after).append_left before).flatMap_right part

/-- A model can be exchanged with a neighbour that is no model of its name. -/
theorem assemble_model_comm (name : String) (schema : Value) {other : Contribution}
    (different : ∀ otherSchema, other ≠ .model name otherSchema)
    (before after : List Contribution) :
    assemble (before ++ .model name schema :: other :: after) =
      assemble (before ++ other :: .model name schema :: after) := by
  have independent : ¬ Competes (.model name schema) other := by
    intro competes
    cases competes with
    | fragments bears => cases bears
    | types defines => cases defines
    | models => exact different _ rfl
  have noIssues : (Contribution.model name schema).issues = [] := rfl
  have noWarnings : (Contribution.model name schema).warnings = [] := rfl
  simp only [assemble, Collection.assemble, resolution_comm independent, errors_ofContributions,
    warnings_ofContributions, List.flatMap_append, List.flatMap_cons, noIssues, noWarnings,
    List.nil_append]

/-- A model can be moved past contributions of which none is a model of its name. -/
theorem assemble_model_move (name : String) (schema : Value) {between : List Contribution}
    (different : ∀ otherSchema, .model name otherSchema ∉ between)
    (before after : List Contribution) :
    assemble (before ++ .model name schema :: (between ++ after)) =
      assemble (before ++ between ++ .model name schema :: after) := by
  induction between generalizing before with
  | nil => simp
  | cons other between ih =>
      have first : ∀ otherSchema, other ≠ .model name otherSchema := by
        rintro otherSchema rfl
        exact different otherSchema (by simp)
      have later : ∀ otherSchema, .model name otherSchema ∉ between :=
        fun otherSchema member => different otherSchema (by simp [member])
      have moved := ih later (before ++ [other])
      rw [List.append_assoc, List.append_assoc, List.append_assoc] at moved
      rw [List.cons_append, assemble_model_comm name schema first, List.append_assoc]
      exact moved

/-- Two neighbouring contributions that do not compete can be exchanged: the build has the
same document, and the same errors and warnings in some order.  A model can be moved past
everything but models of its name, and nothing changes in the build. -/
theorem assemble_exchange (before after : List Contribution) :
    (∀ first second : Contribution, ¬ Competes first second →
      (assemble (before ++ first :: second :: after)).document =
        (assemble (before ++ second :: first :: after)).document ∧
      (assemble (before ++ first :: second :: after)).errors.Perm
        (assemble (before ++ second :: first :: after)).errors ∧
      (assemble (before ++ first :: second :: after)).warnings.Perm
        (assemble (before ++ second :: first :: after)).warnings) ∧
    ∀ (name : String) (schema : Value) (between : List Contribution),
      (∀ otherSchema, .model name otherSchema ∉ between) →
      assemble (before ++ .model name schema :: (between ++ after)) =
        assemble (before ++ between ++ .model name schema :: after) := by
  constructor
  · intro first second independent
    have same := resolution_comm independent before after
    refine ⟨congrArg (fun resolution : Resolution => Value.object resolution.document) same,
      ?_, ?_⟩
    · simp only [assemble, Collection.assemble, same, errors_ofContributions]
      exact (perm_flatMap_exchange _ before after first second).append_right _
    · simp only [assemble, Collection.assemble, warnings_ofContributions]
      exact perm_flatMap_exchange _ before after first second
  · intro name schema between different
    exact assemble_model_move name schema different before after

/-- A comment that defines a pet, with a keyword for what was not declared. -/
def petComment : Contribution :=
  .comments "/** @typedef {Object} Pet\n@propertyOpenapi {name} format byte */"

def petModel : Contribution :=
  .model "Pet" (.object [("type", .string "string")])

def petFragment : Contribution :=
  .fragment [("paths", .object [("/pet", .object [("$ref", .string "#/components/schemas/Pet")])])]

/-- The comment and the model of one name do not compete, and neither do the comment and the
fragment; the model can be moved past both. -/
theorem assemble_petContributions :
    ¬ Competes petComment petModel ∧
      (assemble [petFragment, petComment, petModel]).document =
        (assemble [petFragment, petModel, petComment]).document ∧
      (∀ otherSchema, .model "Pet" otherSchema ∉ [petFragment, petComment]) ∧
      assemble [petModel, petFragment, petComment] =
        assemble [petFragment, petComment, petModel] := by
  have independent : ¬ Competes petComment petModel := by
    intro competes
    cases competes with
    | fragments _ bears => cases bears
    | types _ defines => cases defines
  have different : ∀ otherSchema, Contribution.model "Pet" otherSchema ∉
      [petFragment, petComment] := by
    intro otherSchema member
    simp [petFragment, petComment] at member
  obtain ⟨exchange, -⟩ := assemble_exchange [petFragment] []
  obtain ⟨-, move⟩ := assemble_exchange [] []
  exact ⟨independent, (exchange petComment petModel independent).1, different,
    move "Pet" _ [petFragment, petComment] different⟩

end ApiAssembly.Document
