import ApiAssembly.Document.Collection
import Mathlib.Data.List.Induction

/-!
# What contributions record

A contribution records the same issues whatever was collected before it, behind those
that were recorded already.  The errors of a collection are therefore those of its
contributions in their order, and no contribution reports a missing reference.
-/

namespace ApiAssembly.Document

/-- A step records its own issues behind the present ones, and no missing reference. -/
def Records (step : Collection → Collection) : Prop :=
  ∃ issues : List Issue,
    (∀ collection, (step collection).errors = collection.errors ++ issues) ∧
      ∀ issue ∈ issues, issue.cause.kind ≠ .missingReference

namespace Records

theorem of_errors_eq {step : Collection → Collection}
    (same : ∀ collection, (step collection).errors = collection.errors) : Records step :=
  ⟨[], by simp [same], by simp⟩

theorem record {cause : IssueCause} (source : String)
    (ordinary : cause.kind ≠ .missingReference) :
    Records fun collection => collection.record cause source := by
  refine ⟨[⟨cause, some source⟩], fun collection => rfl, ?_⟩
  intro issue member
  rw [List.mem_singleton.mp member]
  exact ordinary

theorem comp {first second : Collection → Collection} (left : Records first)
    (right : Records second) : Records fun collection => second (first collection) := by
  obtain ⟨early, earlyErrors, earlyKinds⟩ := left
  obtain ⟨late, lateErrors, lateKinds⟩ := right
  refine ⟨early ++ late, ?_, ?_⟩
  · intro collection
    rw [lateErrors, earlyErrors, List.append_assoc]
  · intro issue member
    rcases List.mem_append.mp member with inFirst | inSecond
    · exact earlyKinds issue inFirst
    · exact lateKinds issue inSecond

theorem foldl {α : Type} {step : Collection → α → Collection} (items : List α)
    (each : ∀ item, Records fun collection => step collection item) :
    Records fun collection => items.foldl step collection := by
  induction items with
  | nil => exact of_errors_eq fun _ => rfl
  | cons item items ih => exact comp (each item) ih

/-- The issues of a step are those that it records where nothing was recorded before. -/
theorem errors_eq {step : Collection → Collection} (records : Records step)
    (collection : Collection) :
    (step collection).errors = collection.errors ++ (step {}).errors := by
  obtain ⟨issues, errors, -⟩ := records
  rw [errors collection, errors {}]
  rfl

theorem kind_ne {step : Collection → Collection} (records : Records step) {issue : Issue}
    (member : issue ∈ (step {}).errors) : issue.cause.kind ≠ .missingReference := by
  obtain ⟨issues, errors, kinds⟩ := records
  rw [errors {}] at member
  exact kinds issue member

end Records

theorem records_addFragment (members : Members) :
    Records fun collection => collection.addFragment members :=
  .of_errors_eq fun _ => rfl

theorem records_addYaml (text : String) : Records fun collection => collection.addYaml text := by
  unfold Collection.addYaml
  split
  · exact records_addFragment _
  · exact .of_errors_eq fun _ => rfl
  · exact .record text (by simp [IssueCause.kind])
  · exact .record text (by simp [IssueCause.kind])

theorem records_addEmbedded (source text : String) :
    Records fun collection => collection.addEmbedded source text := by
  unfold Collection.addEmbedded
  split
  · exact .of_errors_eq fun _ => rfl
  · exact records_addFragment _
  · exact .record source (by simp [IssueCause.kind])
  · exact .record source (by simp [IssueCause.kind])

theorem records_addTypedef (source : String) (defined : Typedef) :
    Records fun collection => collection.addTypedef source defined := by
  have problems : Records fun collection => defined.problems.foldl
      (fun collected error => collected.record (.declaration defined.name error) source)
      collection :=
    .foldl defined.problems fun error => .record source (by simp [IssueCause.kind])
  unfold Collection.addTypedef
  cases defined.rootTypeError with
  | none =>
      have defines : Records fun collection => { collection with
          typedefs := Entries.put defined.name defined.schema.toValue collection.typedefs } :=
        .of_errors_eq fun _ => rfl
      exact problems.comp defines
  | some error =>
      have defines : Records fun collection =>
          { collection.warn (.rootType defined.name error) source with
            typedefs := Entries.put defined.name defined.schema.toValue collection.typedefs } :=
        .of_errors_eq fun _ => rfl
      exact problems.comp defines

theorem records_addDefinition (source : String) (block : Comment.Block) :
    Records fun collection => collection.addDefinition source block := by
  unfold Collection.addDefinition
  split
  · exact .of_errors_eq fun _ => rfl
  · exact .record source (by simp [IssueCause.kind])
  · exact records_addTypedef source _

theorem records_addBlock (source : String) (block : Comment.Block) :
    Records fun collection => collection.addBlock source block := by
  unfold Collection.addBlock
  split
  · exact .comp (.foldl (Collection.embeddedTexts block) (records_addEmbedded source))
      (records_addDefinition source block)
  · exact .record source (by simp [IssueCause.kind])

/-- Every contribution records its own issues. -/
theorem records_add (contribution : Contribution) :
    Records fun collection => collection.add contribution := by
  cases contribution with
  | info | fragment | model => exact .of_errors_eq fun _ => rfl
  | yaml text => exact records_addYaml text
  | comments text =>
      exact .foldl (Comment.parse text.toList) fun block => records_addBlock text block

/-- The issues that a contribution records. -/
def Contribution.issues (contribution : Contribution) : List Issue :=
  (({} : Collection).add contribution).errors

theorem errors_add (collection : Collection) (contribution : Contribution) :
    (collection.add contribution).errors = collection.errors ++ contribution.issues :=
  (records_add contribution).errors_eq collection

theorem Contribution.kind_ne {contribution : Contribution} {issue : Issue}
    (member : issue ∈ contribution.issues) : issue.cause.kind ≠ .missingReference :=
  (records_add contribution).kind_ne member

/-- The errors of a collection are those of its contributions, in their order. -/
theorem errors_ofContributions (contributions : List Contribution) :
    (Collection.ofContributions contributions).errors =
      contributions.flatMap Contribution.issues := by
  induction contributions using List.reverseRecOn with
  | nil => rfl
  | append_singleton contributions last ih =>
      rw [Collection.ofContributions_concat, errors_add, ih]
      simp

end ApiAssembly.Document
