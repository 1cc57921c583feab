import ApiAssembly.Proofs.Typedef.Marking

/-!
# The part that a name stands for

A tag refers to a declared part by name: it sets a keyword on the part, or declares a part of it.
What it finds is whatever stands where the last declaration of the name has put its part.  As long
as nothing has been put there or further up since, this is the very part that was declared.
Otherwise the declared part is gone.  The tag is then reported only if nothing stands in its place,
and takes what stands there for the part that is gone if there is something.
-/

namespace ApiAssembly

open Comment (Tag Block)

namespace Typedef

/-- A tag sets a keyword on the part of a name, or declares a part of it. -/
inductive Refers (tag : Tag) (name : String) : Prop where
  | sets (sets : tag.title = "propertyOpenapi") (named : tag.name ≠ "")
      (target : tag.typeText = name)
  | declares (declares : tag.title = "property") {leaf : String} (dotless : '.' ∉ leaf.toList)
      (dotted : tag.name = name ++ "." ++ leaf) (named : name ≠ "")

/-- The last declaration of a name that succeeds in a run, and where it has put its part. -/
structure LatestDeclaration (start : Progress) (front : List Tag) (name : String) where
  before : List Tag
  declaration : Tag
  between : List Tag
  path : List Step
  cut : front = before ++ declaration :: between
  named : declaration.name = name
  inserted : (before.foldl Progress.next start).insertion? declaration = some path
  last : ∀ insertion ∈ insertions ((before.foldl Progress.next start).next declaration) between,
    insertion.tag.name ≠ name

namespace Progress

variable {progress advanced : Progress} {tag : Tag} {inserted : Option (List Step)}

/-- A name is declared where its tag inserts its part. -/
theorem Advances.get?_declared (advances : progress.Advances tag inserted advanced)
    (name : String) :
    Entries.get? name advanced.declared =
      if tag.name = name then inserted.or (Entries.get? name progress.declared)
      else Entries.get? name progress.declared := by
  cases advances with
  | inserts declares declared converts found attaches =>
      rw [Entries.get?_put]
      split <;> simp
  | sets sets named declared found => simp
  | reports fails => simp
  | passes undeclaring unsetting => simp

/-- What is declared is there at first. -/
theorem Advances.isSome_at?_inserted {path : List Step}
    (advances : progress.Advances tag (some path) advanced) :
    (advanced.root.at? path).isSome = true := by
  cases advances with
  | inserts declares declared converts found attaches =>
      have inserted := attaches.at?_inserted found []
      rw [List.append_nil] at inserted
      rw [inserted]
      rfl

end Progress

namespace LatestDeclaration

variable {start : Progress} {front : List Tag} {name : String}

/-- The progress right behind the declaration. -/
def created (latest : LatestDeclaration start front name) : Progress :=
  (latest.before.foldl Progress.next start).next latest.declaration

/-- Something has been put where the declared part stood, or further up. -/
def Replaced (latest : LatestDeclaration start front name) : Prop :=
  ∃ insertion ∈ insertions latest.created latest.between, insertion.path <+: latest.path

theorem foldl_next (latest : LatestDeclaration start front name) :
    front.foldl Progress.next start = latest.between.foldl Progress.next latest.created := by
  have whole := congrArg (List.foldl Progress.next start) latest.cut
  rw [List.foldl_append, List.foldl_cons] at whole
  exact whole

/-- A further tag that does not declare the name leaves the last declaration as it is. -/
def append (latest : LatestDeclaration start front name) {tag : Tag}
    (other : ∀ insertion ∈ insertionOf (front.foldl Progress.next start) tag,
      insertion.tag.name ≠ name) : LatestDeclaration start (front ++ [tag]) name where
  before := latest.before
  declaration := latest.declaration
  between := latest.between ++ [tag]
  path := latest.path
  cut := by
    have cut := congrArg (· ++ [tag]) latest.cut
    simpa using cut
  named := latest.named
  inserted := latest.inserted
  last := by
    rw [insertions_append, List.forall_mem_append]
    refine ⟨latest.last, ?_⟩
    rw [latest.foldl_next] at other
    rw [insertions, insertions, List.append_nil]
    exact other

end LatestDeclaration

/-- Tags of other names leave a name declared as it is. -/
theorem get?_declared_foldl_next {progress : Progress} {tags : List Tag} {name : String}
    (others : ∀ insertion ∈ insertions progress tags, insertion.tag.name ≠ name) :
    Entries.get? name (tags.foldl Progress.next progress).declared =
      Entries.get? name progress.declared := by
  induction tags generalizing progress with
  | nil => rfl
  | cons tag tags ih =>
      rw [insertions, List.forall_mem_append] at others
      rw [List.foldl_cons, ih others.2, (progress.advances_next tag).get?_declared]
      split
      next same =>
        cases inserted : progress.insertion? tag with
        | none => rfl
        | some path =>
            exact absurd same (others.1 ⟨tag, path⟩ (mem_insertionOf.mpr ⟨rfl, inserted⟩))
      next => rfl

/-- A declared name has a last declaration. -/
theorem nonempty_latestDeclaration {start : Progress} (undeclared : start.declared = [])
    {front : List Tag} {name : String} {path : List Step}
    (declared : Entries.get? name (front.foldl Progress.next start).declared = some path) :
    Nonempty (LatestDeclaration start front name) := by
  induction front using List.reverseRecOn generalizing path with
  | nil => simp [undeclared] at declared
  | append_singleton front tag ih =>
      by_cases here : ∃ insertion ∈ insertionOf (front.foldl Progress.next start) tag,
          insertion.tag.name = name
      · obtain ⟨insertion, member, named⟩ := here
        obtain ⟨rfl, inserted⟩ := mem_insertionOf.mp member
        exact ⟨front, insertion.tag, [], insertion.path, rfl, named, inserted, by simp [insertions]⟩
      · have other : ∀ insertion ∈ insertionOf (front.foldl Progress.next start) tag,
            insertion.tag.name ≠ name :=
          fun insertion member named => here ⟨insertion, member, named⟩
        have others : ∀ insertion ∈ insertions (front.foldl Progress.next start) [tag],
            insertion.tag.name ≠ name := by simpa [insertions] using other
        rw [List.foldl_append, get?_declared_foldl_next others] at declared
        obtain ⟨latest⟩ := ih declared
        exact ⟨latest.append other⟩

namespace LatestDeclaration

variable {start : Progress} {front : List Tag} {name : String}

theorem advances (latest : LatestDeclaration start front name) :
    (latest.before.foldl Progress.next start).Advances latest.declaration (some latest.path)
      latest.created :=
  latest.inserted ▸ Progress.advances_next _ _

/-- A name stands for what is where its last declaration has put its part. -/
theorem get?_declared (latest : LatestDeclaration start front name) :
    Entries.get? name (front.foldl Progress.next start).declared = some latest.path := by
  have others : ∀ insertion ∈ insertions latest.created latest.between,
      insertion.tag.name ≠ name := latest.last
  rw [latest.foldl_next, get?_declared_foldl_next others, latest.advances.get?_declared,
    if_pos latest.named, Option.some_or]

end LatestDeclaration

/-- What a tag does to the part at the end of a path when it succeeds: it sets a keyword there, or
it attaches a part, and it changes nothing that is said elsewhere. -/
inductive Affects (progress : Progress) (tag : Tag) (path : List Step) (advanced : Progress) :
    Prop where
  | sets (sets : tag.title = "propertyOpenapi") {part : Schema}
      (found : progress.root.at? path = some part)
      (set : advanced.root.at? path = some
        (part.withExtensions (Entries.put tag.name tag.description part.extensions)))
      (elsewhere : ∀ other, other ≠ path →
        (advanced.root.at? other).map Schema.surface = (progress.root.at? other).map Schema.surface)
      (declared : advanced.declared = progress.declared)
  | attaches (declares : tag.title = "property") {property parent : Schema} {step : Step}
      {attach : Schema → Schema} (converts : propertySchema tag = .ok property)
      (found : progress.root.at? path = some parent)
      (attaches : Attaches tag property parent step attach)
      (attached : advanced.root.at? path = some (attach parent))
      (within : ∀ rest, advanced.root.at? (path ++ [step] ++ rest) = property.at? rest)
      (elsewhere : ∀ other, other ≠ path → ¬ path ++ [step] <+: other →
        (advanced.root.at? other).map Schema.surface = (progress.root.at? other).map Schema.surface)
      (declared : advanced.declared = Entries.put tag.name (path ++ [step]) progress.declared)

section Refers

variable {progress advanced : Progress} {tag : Tag} {name : String} {path : List Step}
variable {inserted : Option (List Step)}

/-- A tag that refers to a declared name affects what stands where the name is declared, unless it
is reported. -/
theorem Progress.Advances.affects (advances : progress.Advances tag inserted advanced)
    (refers : Refers tag name) (declared : Entries.get? name progress.declared = some path)
    (succeeds : progress.failure? tag = none) : Affects progress tag path advanced := by
  cases advances with
  | @inserts declares parentPath property parent step attach found converts present attaches =>
      cases refers with
      | sets sets named target => exact absurd (declares.symm.trans sets) (by decide)
      | declares _ dotless dotted named =>
          rw [dotted, splitName_append dotless, parentPath?, if_neg named, declared] at found
          obtain rfl := Option.some.inj found
          exact .attaches declares converts present attaches (Schema.at?_modifyAt present)
            (attaches.at?_inserted present)
            (fun other elsewhere uncovered =>
              attaches.map_at?_of_ne Schema.surface_withPart present elsewhere uncovered) rfl
  | @sets sets named targetPath part found present =>
      cases refers with
      | declares declares => exact absurd (declares.symm.trans sets) (by decide)
      | sets _ _ target =>
          rw [target, declared] at found
          obtain rfl := Option.some.inj found
          exact .sets sets present (Schema.at?_modifyAt present)
            (fun other elsewhere =>
              Schema.map_at?_modifyAt_of_ne Schema.surface_withPart present elsewhere
                fun step _ _ => Schema.part?_withExtensions part _ step) rfl
  | reports fails => simp [failure?_eq_some_iff.mpr fails] at succeeds
  | passes undeclaring unsetting =>
      cases refers with
      | sets sets named target => exact absurd (unsetting sets) named
      | declares declares => exact absurd declares undeclaring

/-- A tag that succeeds refers to a name that is declared. -/
theorem exists_declared_of_refers (refers : Refers tag name)
    (succeeds : progress.failure? tag = none) :
    ∃ path, Entries.get? name progress.declared = some path := by
  by_contra undeclared
  rw [← Option.ne_none_iff_exists', not_not] at undeclared
  have fails : ∃ error, progress.Fails tag error := by
    cases refers with
    | sets sets named target => exact ⟨_, .unknownTarget sets named (target ▸ undeclared)⟩
    | declares declares dotless dotted named =>
        refine ⟨_, .undeclaredParent declares ?_⟩
        rw [dotted, splitName_append dotless, Progress.parentPath?, if_neg named, undeclared]
  obtain ⟨error, fails⟩ := fails
  simp [Progress.failure?_eq_some_iff.mpr fails] at succeeds

/-- A tag that refers to a part that is gone, and in whose place nothing stands, fails. -/
theorem exists_fails_of_refers (refers : Refers tag name)
    (declared : Entries.get? name progress.declared = some path)
    (lost : progress.root.at? path = none) : ∃ error, progress.Fails tag error := by
  cases refers with
  | sets sets named target => exact ⟨_, .lostTarget sets named (target ▸ declared) lost⟩
  | declares declares dotless dotted named =>
      have found : progress.parentPath? (splitName tag.name).1 = some path := by
        rw [dotted, splitName_append dotless, Progress.parentPath?, if_neg named, declared]
      cases converts : propertySchema tag with
      | error error => exact ⟨_, .conversion declares found converts⟩
      | ok property => exact ⟨_, .lostParent declares found converts lost⟩

/-- A keyword can be set on a part that is there. -/
theorem failure?_eq_none_of_sets (refers : Refers tag name) (sets : tag.title = "propertyOpenapi")
    (declared : Entries.get? name progress.declared = some path)
    (present : (progress.root.at? path).isSome = true) : progress.failure? tag = none := by
  cases refers with
  | declares declares => exact absurd (declares.symm.trans sets) (by decide)
  | sets _ named target =>
      obtain ⟨part, found⟩ := Option.isSome_iff_exists.mp present
      rw [← target] at declared
      rw [Progress.failure?_eq_none_iff, Progress.apply_of_sets sets,
        Progress.extend_eq_ok named declared found]
      exact ⟨_, rfl⟩

end Refers

/-- The progress of a type definition in front of one of its tags. -/
def reached (block : Block) (typedef : Tag) (front : List Tag) : Progress :=
  front.foldl Progress.next (beginning block typedef)

/-- What a tag is reported for is among the problems of the defined type. -/
theorem mem_problems_of_failure? {block : Block} {typedef : Tag} {defined : Typedef}
    (defines : definition? block = some typedef)
    (translated : ofBlock? block = some (.ok defined)) {front back : List Tag} {tag : Tag}
    (cut : block.tags = front ++ tag :: back) {error : TypedefError}
    (fails : (reached block typedef front).failure? tag = some error) :
    error ∈ defined.problems := by
  have outcome := getElem?_outcomes (beginning block typedef) front tag back
  rw [← cut] at outcome
  rw [eq_finished_of_ofBlock? defines translated, finished, problems_foldl_next]
  exact List.mem_append_right _ (List.mem_filterMap.mpr ⟨_, List.mem_of_getElem? outcome, fails⟩)

/-- A tag that refers to a name affects, if it succeeds, what stands where the last declaration of
the name has put its part, and nothing else.  This is the declared part as long as it has not been
replaced; then it is there.  Once it has been replaced, no trace of it is left, and the tag is
reported and changes nothing if there is nothing in its place. -/
theorem affects_of_refers {block : Block} {typedef : Tag} {defined : Typedef}
    (defines : definition? block = some typedef)
    (translated : ofBlock? block = some (.ok defined)) {front back : List Tag} {tag : Tag}
    (cut : block.tags = front ++ tag :: back) {name : String} (refers : Refers tag name) :
    ((reached block typedef front).failure? tag = none →
        Nonempty (LatestDeclaration (beginning block typedef) front name)) ∧
      ∀ latest : LatestDeclaration (beginning block typedef) front name,
        ((reached block typedef front).failure? tag = none →
          Affects (reached block typedef front) tag latest.path
            ((reached block typedef front).next tag)) ∧
        (¬ latest.Replaced →
          (∀ title, latest.between.foldl Progress.next (latest.created.entitle title latest.path) =
            (reached block typedef front).entitle title latest.path) ∧
          ((reached block typedef front).root.at? latest.path).isSome = true ∧
          (tag.title = "propertyOpenapi" → (reached block typedef front).failure? tag = none)) ∧
        (latest.Replaced →
          (∀ title, latest.between.foldl Progress.next (latest.created.entitle title latest.path) =
            reached block typedef front) ∧
          ((reached block typedef front).root.at? latest.path = none →
            ∃ error, (reached block typedef front).failure? tag = some error ∧
              error ∈ defined.problems ∧
              (reached block typedef front).next tag =
                { reached block typedef front with
                  problems := (reached block typedef front).problems ++ [error] })) := by
  refine ⟨?_, fun latest => ⟨?_, ?_, ?_⟩⟩
  · intro succeeds
    obtain ⟨path, declared⟩ := exists_declared_of_refers refers succeeds
    exact nonempty_latestDeclaration rfl declared
  · exact (Progress.advances_next _ tag).affects refers latest.get?_declared
  · intro kept
    have uncovered : ∀ insertion ∈ insertions latest.created latest.between,
        ¬ insertion.path <+: latest.path :=
      fun insertion member covers => kept ⟨insertion, member, covers⟩
    have present : ((reached block typedef front).root.at? latest.path).isSome = true := by
      rw [reached, latest.foldl_next, (foldl_next_entitle uncovered "").2]
      exact latest.advances.isSome_at?_inserted
    refine ⟨?_, present,
      fun sets => failure?_eq_none_of_sets refers sets latest.get?_declared present⟩
    intro title
    rw [reached, latest.foldl_next, (foldl_next_entitle uncovered title).1]
  · intro replaced
    have present := latest.advances.isSome_at?_inserted
    refine ⟨?_, ?_⟩
    · intro title
      rw [reached, latest.foldl_next, foldl_next_entitle_of_covered replaced present title]
    · intro lost
      obtain ⟨error, fails⟩ := exists_fails_of_refers refers latest.get?_declared lost
      have reported := Progress.failure?_eq_some_iff.mpr fails
      exact ⟨error, reported, mem_problems_of_failure? defines translated cut reported,
        (Progress.Advances.reports fails).next_eq⟩

def setFormat (name : String) : Tag :=
  { title := "propertyOpenapi", typeText := name, name := "format", description := "date" }

/-- A thing with a part of a part, which is gone when a keyword is set on it. -/
def detachingFront : List Tag :=
  [thingTypedef, plainPart "first", plainPart "first.left", plainPart "first"]

def detachingBlock : Block :=
  thingBlock (detachingFront.tail ++ [setFormat "first.left"])

def detachedThing : Typedef where
  name := "Thing"
  schema :=
    { typeName := some "object"
      title := some "Thing"
      properties := some [("first", {})]
      required := ["first"] }
  problems := [.unknownExtensionTarget "first.left" "format"]
  rootTypeError := none

def detachedLeft : LatestDeclaration (beginning detachingBlock thingTypedef) detachingFront
    "first.left" where
  before := detachingFront.take 2
  declaration := plainPart "first.left"
  between := detachingFront.drop 3
  path := [.property "first", .property "left"]
  cut := rfl
  named := rfl
  inserted := rfl
  last := by
    intro insertion member
    cases List.mem_singleton.mp member
    decide

/-- The keyword is reported, as the part that held its target has been declared again. -/
theorem reported_detachedLeft :
    definition? detachingBlock = some thingTypedef ∧
      ofBlock? detachingBlock = some (.ok detachedThing) ∧
      detachingBlock.tags = detachingFront ++ setFormat "first.left" :: [] ∧
      Refers (setFormat "first.left") "first.left" ∧ detachedLeft.Replaced ∧
      ∃ error, (reached detachingBlock thingTypedef detachingFront).failure?
          (setFormat "first.left") = some error ∧ error ∈ detachedThing.problems := by
  have defines : definition? detachingBlock = some thingTypedef := by decide
  have translated : ofBlock? detachingBlock = some (.ok detachedThing) := by rfl
  have cut : detachingBlock.tags = detachingFront ++ setFormat "first.left" :: [] := by rfl
  have refers : Refers (setFormat "first.left") "first.left" := .sets rfl (by decide) rfl
  have replaced : detachedLeft.Replaced :=
    ⟨⟨plainPart "first", [.property "first"]⟩, List.mem_singleton.mpr rfl,
      ⟨[.property "left"], rfl⟩⟩
  obtain ⟨-, each⟩ := affects_of_refers defines translated cut refers
  obtain ⟨-, -, lost⟩ := each detachedLeft
  obtain ⟨error, reported, among, -⟩ := (lost replaced).2 rfl
  exact ⟨defines, translated, cut, refers, replaced, error, reported, among⟩

def arrayFirst : Tag :=
  { title := "property", typeText := "array", name := "first" }

/-- A thing with an array that is declared again, with another item each time. -/
def exchangingFront : List Tag :=
  [thingTypedef, arrayFirst, plainPart "first.left", arrayFirst, plainPart "first.right"]

def exchangingBlock : Block :=
  thingBlock (exchangingFront.tail ++ [setFormat "first.left"])

/-- The progress with an array as the first part. -/
def withArray (progress : Progress) : Progress :=
  { progress with
    root := attachProperty "first" (.ofType "array") false progress.root
    declared := Entries.put "first" [.property "first"] progress.declared }

theorem advances_arrayFirst {progress : Progress} (noArray : progress.root.isArray = false) :
    progress.Advances arrayFirst (some [.property "first"]) (withArray progress) := by
  have parent : progress.parentPath? (splitName arrayFirst.name).1 = some [] := rfl
  have converts : propertySchema arrayFirst = .ok (.ofType "array") := by
    rw [propertySchema, arrayFirst, if_neg (by decide), ofText_array]
    rfl
  exact .inserts rfl parent converts rfl (.property noArray)

/-- The thing with an array and its first item. -/
def exchangingProgress : Progress :=
  (withArray (beginning exchangingBlock thingTypedef)).next (plainPart "first.left")

theorem foldl_next_exchangingFront :
    (exchangingFront.take 2).foldl Progress.next (beginning exchangingBlock thingTypedef) =
        withArray (beginning exchangingBlock thingTypedef) ∧
      exchangingFront.foldl Progress.next (beginning exchangingBlock thingTypedef) =
        (withArray exchangingProgress).next (plainPart "first.right") := by
  have silent : (beginning exchangingBlock thingTypedef).next thingTypedef =
      beginning exchangingBlock thingTypedef := by rfl
  have first := (advances_arrayFirst
    (by decide : (beginning exchangingBlock thingTypedef).root.isArray = false)).next_eq
  have again := (advances_arrayFirst (by rfl : exchangingProgress.root.isArray = false)).next_eq
  constructor
  · simp only [exchangingFront, List.take_succ_cons, List.take_zero, List.foldl_cons,
      List.foldl_nil, silent, first]
  · rw [← again]
    simp only [exchangingFront, List.foldl_cons, List.foldl_nil, silent, first]
    rfl

def exchangedThing : Typedef where
  name := "Thing"
  schema :=
    { typeName := some "object"
      title := some "Thing"
      properties := some [("first",
        { typeName := some "array"
          items := .tuple [{ extensions := [("format", "date")] }]
          minItems := some 1
          maxItems := some 1 })]
      required := ["first"] }
  problems := []
  rootTypeError := none

theorem ofBlock?_exchangingBlock : ofBlock? exchangingBlock = some (.ok exchangedThing) := by
  have defines : definition? exchangingBlock = some thingTypedef := by decide
  have tags : exchangingBlock.tags = exchangingFront ++ [setFormat "first.left"] := by rfl
  rw [ofBlock?_of_definition? defines (by decide), tags, List.foldl_append,
    foldl_next_exchangingFront.2]
  rfl

theorem insertions_exchangingProgress :
    insertions exchangingProgress [arrayFirst, plainPart "first.right"] =
      [⟨arrayFirst, [.property "first"]⟩,
        ⟨plainPart "first.right", [.property "first", .item 0]⟩] := by
  have advances := advances_arrayFirst (by rfl : exchangingProgress.root.isArray = false)
  rw [insertions, insertionOf, advances.insertion?_eq, advances.next_eq]
  rfl

/-- The item of the array that was declared first. -/
def exchangedLeft : LatestDeclaration (beginning exchangingBlock thingTypedef) exchangingFront
    "first.left" where
  before := exchangingFront.take 2
  declaration := plainPart "first.left"
  between := [arrayFirst, plainPart "first.right"]
  path := [.property "first", .item 0]
  cut := rfl
  named := rfl
  inserted := by
    rw [foldl_next_exchangingFront.1]
    rfl
  last := by
    rw [foldl_next_exchangingFront.1, ← exchangingProgress, insertions_exchangingProgress]
    decide

/-- A keyword for the item of an array that has been declared again is set on an item that another
declaration has put in its place, and nothing is reported. -/
theorem set_exchangedLeft :
    ofBlock? exchangingBlock = some (.ok exchangedThing) ∧
      exchangingBlock.tags = exchangingFront ++ [setFormat "first.left"] ∧
      exchangedLeft.Replaced ∧
      (reached exchangingBlock thingTypedef exchangingFront).failure? (setFormat "first.left") =
        none ∧
      exchangedThing.schema.at? exchangedLeft.path = some { extensions := [("format", "date")] } ∧
      exchangedThing.problems = [] := by
  have created : exchangedLeft.created = exchangingProgress :=
    congrArg (fun progress : Progress => progress.next (plainPart "first.left"))
      foldl_next_exchangingFront.1
  have inserted : (⟨arrayFirst, [.property "first"]⟩ : Insertion) ∈
      insertions exchangedLeft.created exchangedLeft.between := by
    rw [created, exchangedLeft, insertions_exchangingProgress]
    exact List.mem_cons_self
  refine ⟨ofBlock?_exchangingBlock, rfl, ⟨_, inserted, ⟨[.item 0], rfl⟩⟩, ?_, rfl, rfl⟩
  rw [reached, foldl_next_exchangingFront.2]
  rfl

end Typedef

end ApiAssembly
