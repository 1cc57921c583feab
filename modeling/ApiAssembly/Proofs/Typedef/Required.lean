import ApiAssembly.Proofs.Typedef.Insertion
import Mathlib.Data.List.DropRight

/-!
# Required properties

Whether a property is required follows from all declarations of it since its parent was put where
it is, and whether it is nullable from the last one alone.  A property that is declared as
optional after it has been declared as one that every value has is therefore both nullable and
required; in every other history it is required exactly if the last declaration says so.
-/

namespace ApiAssembly

open Comment (Tag Block)

namespace Typedef

/-- The insertions behind the last one at a path or further up. -/
def since (path : List Step) (log : List Insertion) : List Insertion :=
  log.rtakeWhile fun insertion => ¬ insertion.path <+: path

/-- The tags that declare a property of what stands at the end of a path, in order. -/
def declarationsOf (path : List Step) (name : String) (log : List Insertion) : List Tag :=
  ((since path log).filter fun insertion => insertion.path = path ++ [.property name]).map
    Insertion.tag

section Concat

variable {path : List Step} {name : String} {insertion : Insertion} (log : List Insertion)

/-- What is put where a parent stands has no declared properties. -/
theorem declarationsOf_concat_of_covers (covers : insertion.path <+: path) :
    declarationsOf path name (log ++ [insertion]) = [] := by
  rw [declarationsOf, since, List.rtakeWhile_concat_neg _ _ _ (by simpa using covers)]
  rfl

theorem since_concat (uncovered : ¬ insertion.path <+: path) :
    since path (log ++ [insertion]) = since path log ++ [insertion] := by
  rw [since, List.rtakeWhile_concat_pos _ _ _ (by simpa using uncovered), since]

theorem declarationsOf_concat_self (here : insertion.path = path ++ [.property name]) :
    declarationsOf path name (log ++ [insertion]) =
      declarationsOf path name log ++ [insertion.tag] := by
  have uncovered : ¬ insertion.path <+: path := by
    intro covers
    have longer := covers.length_le
    rw [here, List.length_append, List.length_singleton] at longer
    omega
  simp [declarationsOf, since_concat log uncovered, here]

theorem declarationsOf_concat_of_ne (uncovered : ¬ insertion.path <+: path)
    (elsewhere : insertion.path ≠ path ++ [.property name]) :
    declarationsOf path name (log ++ [insertion]) = declarationsOf path name log := by
  simp [declarationsOf, since_concat log uncovered, elsewhere]

end Concat

/-- What the schema so far requires and allows to be null is what the insertions so far say. -/
structure Recorded (log : List Insertion) (root : Schema) : Prop where
  required : ∀ {path node}, root.at? path = some node → node.isArray = false → ∀ name,
    name ∈ node.required ↔ ∃ tag ∈ declarationsOf path name log, tag.optional = false
  nullable : ∀ {path name last}, (declarationsOf path name log).getLast? = some last →
    ∃ part, root.at? (path ++ [.property name]) = some part ∧ part.nullable = last.optional

/-- A declared schema requires nothing at any depth before something is attached to it. -/
theorem required_eq_nil_of_converted {schema node : Schema} (converted : schema.Converted)
    {title description : Option String} {nullable : Bool} {defaultValue : Option Value}
    {path : List Step}
    (found : { schema with title, description, nullable, defaultValue }.at? path = some node) :
    node.required = [] := by
  cases path with
  | nil =>
      cases found
      exact converted.undivided.required_eq
  | cons step path =>
      have below : schema.at? (step :: path) = some node := by
        rw [← found]
        cases step <;> rfl
      have within : node.Throughout Schema.Converted := converted.throughout.at? below
      exact (within node .self).undivided.required_eq

theorem mem_required_attachProperty {name leaf : String} {property parent : Schema}
    {optional : Bool} :
    name ∈ (attachProperty leaf property optional parent).required ↔
      name ∈ parent.required ∨ (leaf = name ∧ optional = false) := by
  cases optional with
  | true => simp [attachProperty]
  | false =>
      by_cases present : leaf ∈ parent.required
      · simp only [attachProperty, List.contains_iff_mem.mpr present, Bool.or_true, if_true]
        constructor
        · exact .inl
        · rintro (old | ⟨rfl, -⟩)
          · exact old
          · exact present
      · simp [attachProperty, present, eq_comm]

/-- Whether the parts of a schema are items, and which ones it requires. -/
def demands (schema : Schema) : Bool × List String :=
  (schema.isArray, schema.required)

theorem demands_withPart (schema : Schema) (step : Step) (part : Schema) :
    demands (schema.withPart step part) = demands schema := by
  rw [demands, Schema.isArray_withPart, Schema.required_withPart, demands]

section Insert

variable {log : List Insertion} {root property parent : Schema} {tag : Tag} {path : List Step}
variable {step : Step} {attach : Schema → Schema}

/-- A parent requires what is inserted if it is a property of its own that is not optional. -/
theorem Recorded.required_insert (recorded : Recorded log root)
    (converts : propertySchema tag = .ok property) (found : root.at? path = some parent)
    (attaches : Attaches tag property parent step attach) {other : List Step} {node : Schema}
    (present : (root.modifyAt attach path).at? other = some node) (object : node.isArray = false)
    (name : String) : name ∈ node.required ↔
      ∃ declared ∈ declarationsOf other name (log ++ [⟨tag, path ++ [step]⟩]),
        declared.optional = false := by
  -- within what is inserted, at its parent, and anywhere else
  by_cases covered : path ++ [step] <+: other
  · rw [declarationsOf_concat_of_covers log covered]
    obtain ⟨rest, rfl⟩ := covered
    rw [attaches.at?_inserted found] at present
    obtain ⟨plain, converted, rfl⟩ := exists_of_propertySchema_eq_ok converts
    simp [required_eq_nil_of_converted converted present]
  by_cases here : other = path
  · subst here
    rw [Schema.at?_modifyAt found, Option.some.injEq] at present
    subst present
    cases attaches with
    | item array placed =>
        rw [(Attaches.item array placed).isArray_eq, array] at object
        cases object
    | property noArray =>
        rw [mem_required_attachProperty, recorded.required found noArray]
        by_cases same : (splitName tag.name).2 = name
        · rw [declarationsOf_concat_self log (by rw [same])]
          simp [same, or_and_right, exists_or]
        · rw [declarationsOf_concat_of_ne log covered (by simpa using same)]
          simp [same]
  · have kept := attaches.map_at?_of_ne demands_withPart found here covered
    rw [present] at kept
    obtain ⟨before, presentBefore, same⟩ := Option.map_eq_some_iff.mp kept.symm
    obtain ⟨sameArray, sameRequired⟩ := Prod.mk.inj same
    have elsewhere : path ++ [step] ≠ other ++ [.property name] :=
      fun samePath => here (List.append_inj' samePath rfl).1.symm
    rw [declarationsOf_concat_of_ne log covered elsewhere, ← sameRequired]
    exact recorded.required presentBefore (sameArray.trans object) name

/-- A property may be null as the last of its declarations says, be that what is inserted. -/
theorem Recorded.nullable_insert (recorded : Recorded log root)
    (converts : propertySchema tag = .ok property) (found : root.at? path = some parent)
    (attaches : Attaches tag property parent step attach) {other : List Step} {name : String}
    {last : Tag}
    (latest : (declarationsOf other name (log ++ [⟨tag, path ++ [step]⟩])).getLast? = some last) :
    ∃ part, (root.modifyAt attach path).at? (other ++ [.property name]) = some part ∧
      part.nullable = last.optional := by
  by_cases covered : path ++ [step] <+: other
  · rw [declarationsOf_concat_of_covers log covered] at latest
    cases latest
  by_cases here : path ++ [step] = other ++ [.property name]
  · rw [declarationsOf_concat_self log here, List.getLast?_concat] at latest
    cases latest
    have inserted := attaches.at?_inserted found []
    rw [List.append_nil, here] at inserted
    exact ⟨property, inserted, (consistentWithin_of_propertySchema converts).2⟩
  · rw [declarationsOf_concat_of_ne log covered here] at latest
    obtain ⟨part, present, nullable⟩ := recorded.nullable latest
    have uncovered : ¬ path ++ [step] <+: other ++ [.property name] := by
      rw [List.prefix_concat_iff]
      exact not_or.mpr ⟨here, covered⟩
    have kept := attaches.map_at?_of_same Schema.nullable_withPart found attaches.nullable_eq
      uncovered
    rw [present] at kept
    obtain ⟨after, presentAfter, same⟩ := Option.map_eq_some_iff.mp kept
    exact ⟨after, presentAfter, same.trans nullable⟩

/-- What is inserted declares a property of another parent, unless it is the property itself. -/
theorem Recorded.insert (recorded : Recorded log root)
    (converts : propertySchema tag = .ok property)
    (found : root.at? path = some parent) (attaches : Attaches tag property parent step attach) :
    Recorded (log ++ [⟨tag, path ++ [step]⟩]) (root.modifyAt attach path) where
  required := recorded.required_insert converts found attaches
  nullable := recorded.nullable_insert converts found attaches

/-- A keyword that is set has nothing to do with what is required or may be null. -/
theorem Recorded.set (recorded : Recorded log root) (found : root.at? path = some parent)
    (extensions : Schema → Entries String) :
    Recorded log (root.modifyAt (fun part => part.withExtensions (extensions part)) path) := by
  refine ⟨?_, ?_⟩
  · intro other node present object name
    have kept := Schema.map_at?_modifyAt_withExtensions demands_withPart (fun _ _ => rfl) found
      extensions other
    rw [present] at kept
    obtain ⟨before, presentBefore, same⟩ := Option.map_eq_some_iff.mp kept.symm
    obtain ⟨sameArray, sameRequired⟩ := Prod.mk.inj same
    rw [← sameRequired]
    exact recorded.required presentBefore (sameArray.trans object) name
  · intro other name last latest
    obtain ⟨part, present, nullable⟩ := recorded.nullable latest
    have kept := Schema.map_at?_modifyAt_withExtensions Schema.nullable_withPart
      (fun _ _ => rfl) found extensions (other ++ [.property name])
    rw [present] at kept
    obtain ⟨after, presentAfter, same⟩ := Option.map_eq_some_iff.mp kept
    exact ⟨after, presentAfter, same.trans nullable⟩

end Insert

/-- A run records its insertions. -/
theorem Recorded.run {log : List Insertion} {progress : Progress}
    (recorded : Recorded log progress.root) (tags : List Tag) :
    Recorded (log ++ insertions progress tags) (tags.foldl Progress.next progress).root := by
  induction tags generalizing log progress with
  | nil => simpa [insertions] using recorded
  | cons tag tags ih =>
      have advances := progress.advances_next tag
      rw [insertions, ← List.append_assoc, List.foldl_cons]
      refine ih ?_
      rw [insertionOf]
      generalize progress.insertion? tag = inserted at advances ⊢
      generalize progress.next tag = advanced at advances ⊢
      cases advances with
      | inserts declares declared converts found attaches =>
          exact recorded.insert converts found attaches
      | sets sets named declared found => simpa using recorded.set found _
      | reports fails => simpa using recorded
      | passes undeclaring unsetting => simpa using recorded

theorem recorded_beginning (block : Block) (typedef : Tag) :
    Recorded [] (beginning block typedef).root := by
  refine ⟨?_, ?_⟩
  · intro path node found _ name
    have nothing := required_eq_nil_of_converted (converted_rootSchema typedef.typeText) found
    simp [nothing, declarationsOf, since]
  · intro path name last latest
    simp [declarationsOf, since] at latest

section Declared

variable {log : List Insertion} {root node : Schema} {path : List Step} {name : String}
variable {declarations : List Tag} {last : Tag}

/-- A property is required once if some declaration says that every value has it. -/
theorem Recorded.count_required (recorded : Recorded log root) (found : root.at? path = some node)
    (object : node.isArray = false) (distinct : node.required.Nodup) :
    node.required.count name =
      if ∀ tag ∈ declarationsOf path name log, tag.optional = true then 0 else 1 := by
  have required := recorded.required found object name
  split
  next allOptional =>
    refine List.count_eq_zero_of_not_mem fun member => ?_
    obtain ⟨tag, among, mandatory⟩ := required.mp member
    rw [allOptional tag among] at mandatory
    cases mandatory
  next someMandatory =>
    refine List.count_eq_one_of_mem distinct (required.mpr ?_)
    push Not at someMandatory
    simpa using someMandatory

/-- A property is nullable if its last declaration says that values may lack it. -/
theorem Recorded.exists_property? (recorded : Recorded log root)
    (found : root.at? path = some node)
    (declared : declarationsOf path name log = declarations ++ [last]) :
    ∃ part, node.property? name = some part ∧ part.nullable = last.optional := by
  obtain ⟨part, present, nullable⟩ := recorded.nullable (by rw [declared, List.getLast?_concat])
  rw [Schema.at?_append, found, Option.bind_some, Schema.at?, Schema.part?] at present
  obtain ⟨own, holds, same⟩ := Option.bind_eq_some_iff.mp present
  cases same
  exact ⟨part, holds, nullable⟩

/-- The last declaration decides, unless it takes back what an earlier one said. -/
theorem exists_mandatory_iff
    (kept : last.optional = true → ∀ tag ∈ declarations, tag.optional = true) :
    (∃ tag ∈ declarations ++ [last], tag.optional = false) ↔ last.optional = false := by
  constructor
  · rintro ⟨tag, among, mandatory⟩
    rcases List.mem_append.mp among with early | late
    · by_contra optional
      have allOptional := kept (by simpa using optional) tag early
      rw [allOptional] at mandatory
      cases mandatory
    · rwa [← List.mem_singleton.mp late]
  · intro mandatory
    exact ⟨last, by simp, mandatory⟩

end Declared

/-- A declared property is required once if some declaration since its parent was put where it
is says that every value has it, and never otherwise, and it is nullable exactly if the last
declaration says that values may lack it.  So it is required exactly if the last declaration says
so, unless that one takes back what an earlier one said. -/
theorem count_required_of_ofBlock? {block : Block} {typedef : Tag} {defined : Typedef}
    (defines : definition? block = some typedef)
    (translated : ofBlock? block = some (.ok defined)) {path : List Step} {node : Schema}
    (found : defined.schema.at? path = some node) (object : node.typeName ≠ some "array")
    {name : String} {declarations : List Tag} {last : Tag}
    (declared : declarationsOf path name (insertions (beginning block typedef) block.tags) =
      declarations ++ [last]) :
    node.required.count name =
        (if ∀ tag ∈ declarations ++ [last], tag.optional = true then 0 else 1) ∧
      (∃ part, node.property? name = some part ∧ part.nullable = last.optional) ∧
      ((last.optional = true → ∀ tag ∈ declarations, tag.optional = true) →
        (name ∈ node.required ↔ last.optional = false)) := by
  rw [eq_finished_of_ofBlock? defines translated, finished] at found
  have recorded := (recorded_beginning block typedef).run block.tags
  rw [List.nil_append] at recorded
  have root : (beginning block typedef).root.ConsistentWithin :=
    (converted_rootSchema typedef.typeText).consistentWithin.annotate _ _ _ _ _
  have consistent : node.ConsistentWithin :=
    Schema.Throughout.at? (Progress.consistentWithin_foldl_next root block.tags) found
  have noArray := Schema.isArray_eq_false_iff.mpr object
  refine ⟨?_, recorded.exists_property? found declared, ?_⟩
  · rw [← declared]
    exact recorded.count_required found noArray (consistent node .self).required_nodup
  · intro kept
    rw [recorded.required found noArray name, declared]
    exact exists_mandatory_iff kept

def optionalLeft : Tag :=
  { plainPart "first.left" with optional := true }

/-- A thing whose part is declared again, and with it the parts of that part, one of which values
may lack from then on. -/
def regroupingBlock : Block :=
  thingBlock
    [plainPart "first",
      plainPart "first.left",
      plainPart "first",
      optionalLeft,
      plainPart "first.right"]

def regroupedFirst : Schema :=
  { properties := some [("left", { nullable := true }), ("right", {})]
    required := ["right"] }

def regroupedThing : Typedef where
  name := "Thing"
  schema :=
    { typeName := some "object"
      title := some "Thing"
      properties := some [("first", regroupedFirst)]
      required := ["first"] }
  problems := []
  rootTypeError := none

/-- What was said about the part that has been replaced is forgotten. -/
theorem count_required_regroupedFirst :
    definition? regroupingBlock = some thingTypedef ∧
      ofBlock? regroupingBlock = some (.ok regroupedThing) ∧
      regroupedThing.schema.at? [.property "first"] = some regroupedFirst ∧
      regroupedFirst.typeName ≠ some "array" ∧
      declarationsOf [.property "first"] "left"
        (insertions (beginning regroupingBlock thingTypedef) regroupingBlock.tags) =
          [] ++ [optionalLeft] ∧
      regroupedFirst.required.count "left" = 0 ∧
      ∃ part, regroupedFirst.property? "left" = some part ∧ part.nullable = true := by
  have defines : definition? regroupingBlock = some thingTypedef := by decide
  have translated : ofBlock? regroupingBlock = some (.ok regroupedThing) := by rfl
  have found : regroupedThing.schema.at? [.property "first"] = some regroupedFirst := by rfl
  have object : regroupedFirst.typeName ≠ some "array" := by decide
  have declared : declarationsOf [.property "first"] "left"
      (insertions (beginning regroupingBlock thingTypedef) regroupingBlock.tags) =
        [] ++ [optionalLeft] := by rfl
  obtain ⟨count, part, -⟩ := count_required_of_ofBlock? defines translated found object declared
  exact ⟨defines, translated, found, object, declared, count.trans (if_pos (by decide)), part⟩

/-- A thing with a property that every value has until it is declared again. -/
def withdrawingBlock : Block :=
  thingBlock
    [plainPart "left",
      { plainPart "left" with optional := true }]

/-- A property that values may lack by its last declaration is nullable and required. -/
theorem required_withdrawingBlock :
    ∃ defined, ofBlock? withdrawingBlock = some (.ok defined) ∧
      declarationsOf [] "left"
        (insertions (beginning withdrawingBlock thingTypedef) withdrawingBlock.tags) =
          [plainPart "left",
            { plainPart "left" with optional := true }] ∧
      defined.schema.typeName ≠ some "array" ∧ "left" ∈ defined.schema.required ∧
      ∃ part, defined.schema.property? "left" = some part ∧ part.nullable = true := by
  exact ⟨_, rfl, rfl, by decide, List.mem_singleton.mpr rfl, _, rfl, rfl⟩

end Typedef

end ApiAssembly
