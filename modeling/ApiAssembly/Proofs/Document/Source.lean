import ApiAssembly.Proofs.Comment.Extraction
import ApiAssembly.Proofs.Document.Effect

/-!
# The sources of issues

A text with comments can be added as a whole or comment by comment: the collections differ
in the sources of their issues only, and so do the builds.
-/

namespace ApiAssembly.Document

/-- Two collections that differ at most in the sources of their issues. -/
structure AgreeButSources (left right : Collection) : Prop where
  info : left.info = right.info
  fragments : left.fragments = right.fragments
  typedefs : left.typedefs = right.typedefs
  models : left.models = right.models
  errors : left.errors.map Issue.cause = right.errors.map Issue.cause
  warnings : left.warnings.map Issue.cause = right.warnings.map Issue.cause

namespace AgreeButSources

variable {left right : Collection}

theorem refl (collection : Collection) : AgreeButSources collection collection :=
  ⟨rfl, rfl, rfl, rfl, rfl, rfl⟩

/-- An effect keeps agreement, whatever the two sources are. -/
theorem perform (agree : AgreeButSources left right) (leftSource rightSource : String)
    (effect : Effect) :
    AgreeButSources (effect.perform leftSource left) (effect.perform rightSource right) := by
  cases effect with
  | add members =>
      exact { agree with fragments := congrArg (· ++ [normalize members]) agree.fragments }
  | define name schema =>
      exact { agree with typedefs := congrArg (Entries.put name schema) agree.typedefs }
  | record cause =>
      refine { agree with errors := ?_ }
      simp [Effect.perform, Collection.record, agree.errors]
  | warn cause =>
      refine { agree with warnings := ?_ }
      simp [Effect.perform, Collection.warn, agree.warnings]

theorem performAll (agree : AgreeButSources left right) (leftSource rightSource : String)
    (effects : List Effect) :
    AgreeButSources (Effect.performAll leftSource effects left)
      (Effect.performAll rightSource effects right) := by
  induction effects generalizing left right with
  | nil => exact agree
  | cons effect effects ih => exact ih (agree.perform leftSource rightSource effect)

theorem add (agree : AgreeButSources left right) (contribution : Contribution) :
    AgreeButSources (left.add contribution) (right.add contribution) := by
  cases contribution with
  | info info => exact { agree with info := rfl }
  | yaml text =>
      rw [Collection.add, Collection.addYaml_eq, Collection.add, Collection.addYaml_eq]
      exact agree.performAll text text _
  | comments text =>
      rw [Collection.add, Collection.addComments_eq, Collection.add, Collection.addComments_eq]
      exact agree.performAll text text _
  | fragment members => exact agree.perform "" "" (.add members)
  | model name schema =>
      exact { agree with models := congrArg (Entries.put name schema) agree.models }

theorem foldl_add (agree : AgreeButSources left right) (contributions : List Contribution) :
    AgreeButSources (contributions.foldl Collection.add left)
      (contributions.foldl Collection.add right) := by
  induction contributions generalizing left right with
  | nil => exact agree
  | cons contribution contributions ih => exact ih (agree.add contribution)

/-- The document does not depend on sources. -/
theorem resolution_eq (agree : AgreeButSources left right) :
    left.resolution = right.resolution := by
  have merged : left.merged = right.merged := by
    rw [Collection.merged, Collection.merged, agree.info, agree.fragments]
  have schemas : left.schema? = right.schema? := by
    funext name
    rw [Collection.schema?, Collection.schema?, agree.typedefs, agree.models]
  rw [Collection.resolution, Collection.resolution, merged, schemas, agree.typedefs,
    agree.models]

end AgreeButSources

/-- Two builds that differ at most in the sources of their issues. -/
structure SameButSources (left right : Assembly) : Prop where
  document : left.document = right.document
  errors : left.errors.map Issue.cause = right.errors.map Issue.cause
  warnings : left.warnings.map Issue.cause = right.warnings.map Issue.cause

theorem AgreeButSources.assemble {left right : Collection} (agree : AgreeButSources left right) :
    SameButSources left.assemble right.assemble := by
  rw [Collection.assemble, Collection.assemble, agree.resolution_eq]
  refine ⟨rfl, ?_, agree.warnings⟩
  rw [List.map_append, List.map_append, agree.errors]

namespace Collection

/-- A comment as a text of its own is added as the block that it is. -/
theorem addComments_of_blockTexts_eq {block : List Char}
    (alone : Comment.blockTexts block = [block]) (collection : Collection) :
    collection.addComments (String.ofList block) =
      collection.addBlock (String.ofList block) (Comment.parseBlock block) := by
  rw [addComments, String.toList_ofList, Comment.parse, alone]
  rfl

/-- Comments that are added one by one give what they give under a common source. -/
theorem agree_foldl_addComments {left right : Collection}
    (agree : AgreeButSources left right) (source : String) {blocks : List (List Char)}
    (alone : ∀ block ∈ blocks, Comment.blockTexts block = [block]) :
    AgreeButSources ((blocks.map Comment.parseBlock).foldl (addBlock source) left)
      ((blocks.map String.ofList).foldl addComments right) := by
  induction blocks generalizing left right with
  | nil => exact agree
  | cons block blocks ih =>
      apply ih
      · rw [addComments_of_blockTexts_eq (alone block (by simp)), addBlock_eq, addBlock_eq]
        exact agree.performAll source _ _
      · intro other member
        exact alone other (by simp [member])

/-- Adding a text with comments does the same as adding its comments one by one, but for the
sources of the issues; so the builds are the same but for these sources, whatever is added
later.  Each of the comments is the one comment of its own text. -/
theorem addComments_agrees_piecewise (collection : Collection) (text : String) :
    let piecewise :=
      ((Comment.blockTexts text.toList).map String.ofList).foldl addComments collection
    AgreeButSources (collection.addComments text) piecewise ∧
      (∀ later : List Contribution,
        SameButSources (later.foldl add (collection.addComments text)).assemble
          (later.foldl add piecewise).assemble) ∧
      ∀ block ∈ Comment.blockTexts text.toList, Comment.blockTexts block = [block] := by
  intro piecewise
  have alone : ∀ block ∈ Comment.blockTexts text.toList, Comment.blockTexts block = [block] :=
    fun block member => Comment.blockTexts_of_mem member
  have agree : AgreeButSources (collection.addComments text) piecewise :=
    agree_foldl_addComments (.refl collection) text alone
  exact ⟨agree, fun later => (agree.foldl_add later).assemble, alone⟩

end Collection

end ApiAssembly.Document
