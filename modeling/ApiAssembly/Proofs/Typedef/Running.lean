import ApiAssembly.Proofs.Typedef.Declaring

/-!
# Runs over declarations

A declaration or a setting that fails is reported and leaves the schema and the paths to the
declared parts as they are.  What has been reported has no bearing on the tags that follow, so
a run over the tags that succeed ends as a run over all of them does, without reports.
-/

namespace ApiAssembly

open Comment (Tag Block)

namespace Typedef

namespace Progress

/-- The reasons for which a tag has no effect, each with the report of it. -/
inductive Fails (progress : Progress) (tag : Tag) : TypedefError → Prop where
  | undeclaredParent (declares : tag.title = "property")
      (undeclared : progress.parentPath? (splitName tag.name).1 = none) :
    Fails progress tag (.undeclaredParent tag.name (splitName tag.name).1)
  | conversion (declares : tag.title = "property") {path : List Step} {error : ConversionError}
      (declared : progress.parentPath? (splitName tag.name).1 = some path)
      (unconvertible : propertySchema tag = .error error) :
    Fails progress tag (.conversion error)
  | lostParent (declares : tag.title = "property") {path : List Step} {property : Schema}
      (declared : progress.parentPath? (splitName tag.name).1 = some path)
      (converts : propertySchema tag = .ok property)
      (lost : progress.root.at? path = none) :
    Fails progress tag (.undeclaredParent tag.name (splitName tag.name).1)
  | homogeneousParent (declares : tag.title = "property") {path : List Step}
      {property parent element : Schema}
      (declared : progress.parentPath? (splitName tag.name).1 = some path)
      (converts : propertySchema tag = .ok property)
      (found : progress.root.at? path = some parent) (array : parent.typeName = some "array")
      (alike : parent.items = .each element) :
    Fails progress tag (.homogeneousArrayParent tag.name (splitName tag.name).1)
  | unknownTarget (sets : tag.title = "propertyOpenapi") (named : tag.name ≠ "")
      (undeclared : Entries.get? tag.typeText progress.declared = none) :
    Fails progress tag (.unknownExtensionTarget tag.typeText tag.name)
  | lostTarget (sets : tag.title = "propertyOpenapi") (named : tag.name ≠ "") {path : List Step}
      (declared : Entries.get? tag.typeText progress.declared = some path)
      (lost : progress.root.at? path = none) :
    Fails progress tag (.unknownExtensionTarget tag.typeText tag.name)

variable {progress advanced : Progress} {tag : Tag} {error : TypedefError}

theorem fails_of_declare_eq_error (declares : tag.title = "property")
    (failure : progress.declare tag = .error error) : progress.Fails tag error := by
  rw [declare] at failure
  cases declared : progress.parentPath? (splitName tag.name).1 with
  | none =>
      simp only [declared] at failure
      cases failure
      exact .undeclaredParent declares declared
  | some path =>
      simp only [declared] at failure
      cases converts : propertySchema tag with
      | error conversion =>
          rw [converts] at failure
          cases failure
          exact .conversion declares declared converts
      | ok property =>
          simp only [converts, mapError_ok_bind] at failure
          cases found : progress.root.at? path with
          | none =>
              simp only [found] at failure
              cases failure
              exact .lostParent declares declared converts found
          | some parent =>
              simp only [found] at failure
              cases array : parent.isArray with
              | false =>
                  rw [if_neg (by simp [array])] at failure
                  cases failure
              | true =>
                  rw [if_pos array] at failure
                  cases items : parent.items with
                  | each element =>
                      simp only [items] at failure
                      cases failure
                      exact .homogeneousParent declares declared converts found
                        (Schema.isArray_iff.mp array) items
                  | absent =>
                      simp only [items] at failure
                      cases failure
                  | tuple schemas =>
                      simp only [items] at failure
                      cases failure

theorem fails_of_extend_eq_error (sets : tag.title = "propertyOpenapi")
    (failure : progress.extend tag = .error error) : progress.Fails tag error := by
  rw [extend] at failure
  split at failure
  next => cases failure
  next named =>
    cases declared : Entries.get? tag.typeText progress.declared with
    | none =>
        simp only [declared] at failure
        cases failure
        exact .unknownTarget sets named declared
    | some path =>
        simp only [declared] at failure
        cases found : progress.root.at? path with
        | none =>
            simp only [found] at failure
            cases failure
            exact .lostTarget sets named declared found
        | some part =>
            simp only [found] at failure
            cases failure

/-- A tag is reported exactly for the reasons that there are, each time by its own report. -/
theorem apply_eq_error_iff : progress.apply tag = .error error ↔ progress.Fails tag error := by
  constructor
  · intro failure
    rw [apply_eq] at failure
    split at failure
    next declares => exact fails_of_declare_eq_error declares failure
    next =>
      split at failure
      next sets => exact fails_of_extend_eq_error sets failure
      next => cases failure
  · intro fails
    cases fails with
    | undeclaredParent declares undeclared =>
        rw [apply_of_declares declares, declare]
        simp only [undeclared]
        rfl
    | conversion declares declared unconvertible =>
        rw [apply_of_declares declares, declare]
        simp only [declared, unconvertible]
        rfl
    | lostParent declares declared converts lost =>
        rw [apply_of_declares declares, declare]
        simp only [declared, converts, mapError_ok_bind, lost]
        rfl
    | homogeneousParent declares declared converts found array alike =>
        rw [apply_of_declares declares, declare]
        simp only [declared, converts, mapError_ok_bind, found,
          if_pos (Schema.isArray_iff.mpr array), alike]
        rfl
    | unknownTarget sets named undeclared =>
        rw [apply_of_sets sets, extend, if_neg named]
        simp only [undeclared]
    | lostTarget sets named declared lost =>
        rw [apply_of_sets sets, extend, if_neg named]
        simp only [declared, lost]

/-- The progress without what was reported. -/
def cleared (progress : Progress) : Progress :=
  { progress with problems := [] }

/-- The report of a tag, if it fails. -/
def failure? (progress : Progress) (tag : Tag) : Option TypedefError :=
  match progress.apply tag with
  | .ok _ => none
  | .error error => some error

theorem failure?_eq_some_iff : progress.failure? tag = some error ↔ progress.Fails tag error := by
  rw [← apply_eq_error_iff, failure?]
  split
  next success => simp [success]
  next failure => simp [failure]

theorem failure?_eq_none_iff :
    progress.failure? tag = none ↔ ∃ advanced, progress.apply tag = .ok advanced := by
  rw [failure?]
  split
  next success => simp [success]
  next failure => simp [failure]

theorem failure?_eq_none_of_title (undeclaring : tag.title ≠ "property")
    (unsetting : tag.title ≠ "propertyOpenapi") : progress.failure? tag = none := by
  rw [failure?_eq_none_iff, apply_eq, if_neg undeclaring, if_neg unsetting]
  exact ⟨progress, rfl⟩

theorem title_of_fails (fails : progress.Fails tag error) :
    tag.title = "property" ∨ tag.title = "propertyOpenapi" := by
  cases fails with
  | undeclaredParent declares | conversion declares | lostParent declares
  | homogeneousParent declares => exact .inl declares
  | unknownTarget sets | lostTarget sets => exact .inr sets

/-- A tag that succeeds does so whatever was reported. -/
theorem apply_cleared_of_apply (success : progress.apply tag = .ok advanced) :
    progress.cleared.apply tag = .ok advanced.cleared := by
  rw [apply_eq] at success ⊢
  split at success
  next declares =>
    obtain ⟨path, property, parent, step, attach, declared, converts, found, attaches, rfl⟩ :=
      exists_of_declare_eq_ok success
    rw [if_pos declares]
    exact declare_eq_ok declared converts found attaches
  next silent =>
    rw [if_neg silent]
    split at success
    next sets =>
      rw [if_pos sets]
      by_cases named : tag.name = ""
      · rw [extend, if_pos named] at success ⊢
        cases success
        rfl
      · obtain ⟨path, part, declared, found, rfl⟩ := exists_of_extend_eq_ok named success
        exact extend_eq_ok named declared found
    next unset =>
      cases success
      rw [if_neg unset]

/-- A tag that fails leaves nothing behind but its report. -/
theorem cleared_next_of_failure (fails : progress.failure? tag = some error) :
    (progress.next tag).cleared = progress.cleared ∧
      (progress.next tag).problems = progress.problems ++ [error] := by
  rw [failure?_eq_some_iff, ← apply_eq_error_iff] at fails
  rw [next, fails]
  exact ⟨rfl, rfl⟩

/-- A tag that succeeds does so whatever was reported, and reports nothing. -/
theorem cleared_next_of_success (succeeds : progress.failure? tag = none) :
    (progress.next tag).cleared = progress.cleared.next tag ∧
      (progress.next tag).problems = progress.problems := by
  obtain ⟨advanced, success⟩ := failure?_eq_none_iff.mp succeeds
  have advances : progress.next tag = advanced := by rw [next, success]
  rw [advances, next, apply_cleared_of_apply success]
  exact ⟨rfl, problems_of_apply_eq_ok success⟩

end Progress

/-- The tags of a run, each with its report if it fails. -/
def outcomes (progress : Progress) : List Tag → List (Tag × Option TypedefError)
  | [] => []
  | tag :: tags => (tag, progress.failure? tag) :: outcomes (progress.next tag) tags

/-- The tags of a run that do not fail. -/
def succeeding (progress : Progress) (tags : List Tag) : List Tag :=
  ((outcomes progress tags).filter fun outcome => outcome.2.isNone).map Prod.fst

theorem succeeding_cons (progress : Progress) (tag : Tag) (tags : List Tag) :
    succeeding progress (tag :: tags) =
      if (progress.failure? tag).isNone then tag :: succeeding (progress.next tag) tags
      else succeeding (progress.next tag) tags := by
  rw [succeeding, outcomes, List.filter_cons]
  split <;> rfl

/-- Every tag has one outcome. -/
theorem map_fst_outcomes (progress : Progress) (tags : List Tag) :
    (outcomes progress tags).map Prod.fst = tags := by
  induction tags generalizing progress with
  | nil => rfl
  | cons tag tags ih => rw [outcomes, List.map_cons, ih]

/-- A tag has the outcome that the progress in front of it gives. -/
theorem getElem?_outcomes (progress : Progress) (front : List Tag) (tag : Tag) (back : List Tag) :
    (outcomes progress (front ++ tag :: back))[front.length]? =
      some (tag, (front.foldl Progress.next progress).failure? tag) := by
  induction front generalizing progress with
  | nil => rfl
  | cons first front ih => exact ih (progress.next first)

theorem exists_of_mem_outcomes {progress : Progress} {tags : List Tag} {tag : Tag}
    {outcome : Option TypedefError} (member : (tag, outcome) ∈ outcomes progress tags) :
    ∃ before : Progress, before.failure? tag = outcome := by
  induction tags generalizing progress with
  | nil => simp [outcomes] at member
  | cons first tags ih =>
      rw [outcomes, List.mem_cons] at member
      rcases member with same | later
      · cases same
        exact ⟨progress, rfl⟩
      · exact ih later

/-- A run reports the tags that fail, in order. -/
theorem problems_foldl_next (progress : Progress) (tags : List Tag) :
    (tags.foldl Progress.next progress).problems =
      progress.problems ++ (outcomes progress tags).filterMap Prod.snd := by
  induction tags generalizing progress with
  | nil => simp [outcomes]
  | cons tag tags ih =>
      rw [List.foldl_cons, ih, outcomes]
      cases outcome : progress.failure? tag with
      | none => simp [(Progress.cleared_next_of_success outcome).2]
      | some error => simp [(Progress.cleared_next_of_failure outcome).2]

/-- A run over the tags that succeed ends as a run over all tags does, without reports. -/
theorem foldl_next_succeeding (progress : Progress) (tags : List Tag) :
    (succeeding progress tags).foldl Progress.next progress.cleared =
      (tags.foldl Progress.next progress).cleared := by
  induction tags generalizing progress with
  | nil => rfl
  | cons tag tags ih =>
      rw [succeeding_cons, List.foldl_cons, ← ih]
      cases outcome : progress.failure? tag with
      | none => simp [(Progress.cleared_next_of_success outcome).1]
      | some error => simp [(Progress.cleared_next_of_failure outcome).1]

/-- What never fails is found among the tags that succeed where it is found among all. -/
theorem find?_succeeding {holds : Tag → Bool} {tags : List Tag}
    (harmless : ∀ (progress : Progress) (tag : Tag),
      holds tag = true → progress.failure? tag = none)
    (progress : Progress) : (succeeding progress tags).find? holds = tags.find? holds := by
  induction tags generalizing progress with
  | nil => rfl
  | cons tag tags ih =>
      rw [succeeding_cons]
      cases here : holds tag with
      | true => simp [harmless progress tag here, here]
      | false =>
          rw [List.find?_cons_of_neg (by simp [here])]
          split
          · rw [List.find?_cons_of_neg (by simp [here]), ih]
          · exact ih _

/-- The progress at the first tag of a comment that defines a type. -/
def beginning (block : Block) (typedef : Tag) : Progress where
  root :=
    { (rootSchema typedef.typeText).1 with
      title := some typedef.name
      description :=
        if block.description = "" then (rootSchema typedef.typeText).1.description
        else some block.description }

/-- The type that a comment defines, from the progress behind its last tag. -/
def finished (typedef : Tag) (progress : Progress) : Typedef where
  name := typedef.name
  schema := progress.root
  problems := progress.problems
  rootTypeError := (rootSchema typedef.typeText).2

theorem ofBlock?_of_definition? {block : Block} {typedef : Tag}
    (defines : definition? block = some typedef) (named : typedef.name ≠ "") :
    ofBlock? block = some (.ok
      (finished typedef (block.tags.foldl Progress.next (beginning block typedef)))) := by
  rw [ofBlock?, find?_typedefTitle, defines, Option.map_some, if_neg named]
  rfl

theorem eq_finished_of_ofBlock? {block : Block} {typedef : Tag} {defined : Typedef}
    (defines : definition? block = some typedef)
    (translated : ofBlock? block = some (.ok defined)) :
    defined = finished typedef (block.tags.foldl Progress.next (beginning block typedef)) := by
  have named : typedef.name ≠ "" := by
    intro unnamed
    rw [ofBlock?, find?_typedefTitle, defines, Option.map_some, if_pos unnamed] at translated
    cases translated
  rw [ofBlock?_of_definition? defines named] at translated
  cases translated
  rfl

/-- A type definition with a name reports each declaration and each setting that fails once,
in order and for the reason that there is, and without the tags that fail it defines the same
type and reports nothing. -/
theorem ofBlock?_succeeding {block : Block} {typedef : Tag}
    (defines : definition? block = some typedef) (named : typedef.name ≠ "") :
    ∃ defined, ofBlock? block = some (.ok defined) ∧
      defined.problems = (outcomes (beginning block typedef) block.tags).filterMap Prod.snd ∧
      (outcomes (beginning block typedef) block.tags).map Prod.fst = block.tags ∧
      (∀ front tag back, block.tags = front ++ tag :: back → ∀ error,
        (outcomes (beginning block typedef) block.tags)[front.length]? = some (tag, some error) ↔
          (front.foldl Progress.next (beginning block typedef)).Fails tag error) ∧
      (∀ tag error, (tag, some error) ∈ outcomes (beginning block typedef) block.tags →
        tag.title = "property" ∨ tag.title = "propertyOpenapi") ∧
      ofBlock? { block with tags := succeeding (beginning block typedef) block.tags } =
        some (.ok { defined with problems := [] }) := by
  have whole := ofBlock?_of_definition? defines named
  have kept : definition? { block with tags := succeeding (beginning block typedef) block.tags } =
      some typedef := by
    refine (find?_succeeding ?_ (beginning block typedef)).trans defines
    intro progress tag titled
    have silent : tag.title = "typedef" := by simpa using titled
    exact Progress.failure?_eq_none_of_title (silent ▸ by decide) (silent ▸ by decide)
  refine ⟨_, whole, ?_, map_fst_outcomes _ _, ?_, ?_, ?_⟩
  · exact problems_foldl_next _ _
  · intro front tag back cut error
    rw [cut, getElem?_outcomes, ← Progress.failure?_eq_some_iff]
    simp
  · intro tag error member
    obtain ⟨progress, fails⟩ := exists_of_mem_outcomes member
    exact Progress.title_of_fails (Progress.failure?_eq_some_iff.mp fails)
  · have rerun := foldl_next_succeeding (beginning block typedef) block.tags
    rw [ofBlock?_of_definition? kept named]
    exact congrArg (fun progress => some (Except.ok (finished typedef progress))) rerun

def thingTypedef : Tag :=
  { title := "typedef", name := "Thing" }

def plainPart (name : String) : Tag :=
  { title := "property", name }

/-- A comment that defines a thing, with further tags. -/
def thingBlock (tags : List Tag) : Block where
  source := ""
  description := ""
  tags := thingTypedef :: tags
  problems := []

/-- A thing with a part of a part that is declared too early and again in time, and that is gone
when a keyword is set on it, as the part that held it has been declared again. -/
def skippingBlock : Block :=
  thingBlock
    [plainPart "first.left",
      plainPart "first",
      plainPart "first.left",
      plainPart "first",
      { title := "propertyOpenapi", typeText := "first.left", name := "format" },
      { title := "propertyOpenapi", typeText := "second", name := "format" },
      { plainPart "second" with optional := true }]

/-- The same thing without what is skipped. -/
def skippedBlock : Block :=
  thingBlock
    [plainPart "first",
      plainPart "first.left",
      plainPart "first",
      { plainPart "second" with optional := true }]

def skippedProblems : List TypedefError :=
  [.undeclaredParent "first.left" "first", .unknownExtensionTarget "first.left" "format",
    .unknownExtensionTarget "second" "format"]

/-- Three tags of the thing fail, and without them it is the same. -/
theorem ofBlock?_skippedBlock :
    definition? skippingBlock = some thingTypedef ∧ thingTypedef.name ≠ "" ∧
      ∃ defined, ofBlock? skippingBlock = some (.ok defined) ∧
        defined.problems = skippedProblems ∧
        ofBlock? skippedBlock = some (.ok { defined with problems := [] }) := by
  have defines : definition? skippingBlock = some thingTypedef := by decide
  have named : thingTypedef.name ≠ "" := by decide
  obtain ⟨defined, translated, problems, -, -, -, again⟩ := ofBlock?_succeeding defines named
  have reported : (outcomes (beginning skippingBlock thingTypedef) skippingBlock.tags).filterMap
      Prod.snd = skippedProblems := by rfl
  have kept : succeeding (beginning skippingBlock thingTypedef) skippingBlock.tags =
      skippedBlock.tags := by rfl
  rw [kept] at again
  exact ⟨defines, named, defined, translated, problems.trans reported, again⟩

end Typedef

end ApiAssembly
