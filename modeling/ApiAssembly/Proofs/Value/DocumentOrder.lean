import ApiAssembly.Proofs.Document.OpenReference
import ApiAssembly.Proofs.Value.WellKeyed

/-!
# The order of a document

A path leads to at most one part of a value whose keys are distinct.  The paths have an order:
a whole comes before its parts, and of two parts the one whose member or item comes first.  The
values under a key are visited in this order, and the schemas that a value refers to are listed
in the order in which their references are visited first.
-/

namespace ApiAssembly

namespace Value

/-- The part of a value to which one step leads. -/
def part? : Value → Step → Option Value
  | .object members, .member key => Entries.get? key members
  | .array items, .item index => items[index]?
  | _, _ => none

/-- The part of a value to which a path leads. -/
def at? (value : Value) : List Step → Option Value
  | [] => some value
  | step :: path => (value.part? step).bind fun part => part.at? path

/-- The number of parts in front of the one to which a step leads. -/
def rank : Value → Step → Nat
  | .object members, .member key => (Entries.keys members).idxOf key
  | _, .item index => index
  | _, .member _ => 0

/-- One path of a value comes before another in the document. -/
inductive Precedes : Value → List Step → List Step → Prop
  | whole {value : Value} {step : Step} {path : List Step} : Precedes value [] (step :: path)
  | beside {value : Value} {first second : Step} {front back : List Step}
      (before : value.rank first < value.rank second) :
      Precedes value (first :: front) (second :: back)
  | within {value part : Value} {step : Step} {front back : List Step}
      (held : value.part? step = some part) (inner : Precedes part front back) :
      Precedes value (step :: front) (step :: back)

theorem not_precedes_self (value : Value) (path : List Step) : ¬value.Precedes path path := by
  induction path generalizing value with
  | nil => exact fun before => nomatch before
  | cons step path ih =>
      rintro (_ | before | ⟨held, inner⟩)
      · exact Nat.lt_irrefl _ before
      · exact ih _ inner

section Paths

theorem hasPart_iff_part? {value part : Value} (wellKeyed : value.WellKeyed) {step : Step} :
    value.HasPart step part ↔ value.part? step = some part := by
  constructor
  · rintro (inside | inside)
    · exact Entries.get?_of_mem wellKeyed.distinct inside
    · exact inside
  · intro found
    cases value with
    | object members =>
        cases step with
        | member key => exact .member (Entries.mem_of_get? found)
        | item index => cases found
    | array items =>
        cases step with
        | member key => cases found
        | item index => exact .item found
    | _ => cases step <;> cases found

theorem WellKeyed.part {value part : Value} (wellKeyed : value.WellKeyed) {step : Step}
    (held : value.HasPart step part) : part.WellKeyed := by
  cases held with
  | member inside => exact wellKeyed.each inside
  | item inside => exact wellKeyed.item (List.mem_of_getElem? inside)

/-- The positions of a value are its paths with the parts to which they lead. -/
theorem mem_positions_iff_at? {value part : Value} (wellKeyed : value.WellKeyed)
    {path : List Step} : ⟨path, part⟩ ∈ value.positions ↔ value.at? path = some part := by
  induction path generalizing value with
  | nil => rw [mem_positions_nil, at?, Option.some.injEq, eq_comm]
  | cons step path ih =>
      rw [mem_positions_cons, at?, Option.bind_eq_some_iff]
      constructor
      · rintro ⟨middle, held, inner⟩
        exact ⟨middle, (hasPart_iff_part? wellKeyed).mp held,
          (ih (wellKeyed.part held)).mp inner⟩
      · rintro ⟨middle, found, inner⟩
        have held := (hasPart_iff_part? wellKeyed).mpr found
        exact ⟨middle, held, (ih (wellKeyed.part held)).mpr inner⟩

end Paths

section Order

theorem memberPositions_eq_flatMap (members : Members) :
    memberPositions members = members.flatMap fun member =>
      member.2.positions.map (Position.behind (.member member.1)) := by
  induction members with
  | nil => rfl
  | cons member members ih => rw [memberPositions, ih, List.flatMap_cons]

theorem itemPositions_eq_flatMap (start : Nat) (items : List Value) :
    itemPositions start items = (items.zipIdx start).flatMap fun item =>
      item.1.positions.map (Position.behind (.item item.2)) := by
  induction items generalizing start with
  | nil => rfl
  | cons item items ih => rw [itemPositions, ih, List.zipIdx_cons, List.flatMap_cons]

/-- Distinct keys are in the order of their places. -/
theorem pairwise_rank {members : Members} (distinct : (Entries.keys members).Nodup) :
    members.Pairwise fun first second =>
      (Value.object members).rank (.member first.1) <
        (Value.object members).rank (.member second.1) := by
  rw [List.pairwise_iff_getElem]
  intro first second firstInside secondInside before
  have place : ∀ (index : Nat) (inside : index < members.length),
      (Value.object members).rank (.member members[index].1) = index := by
    intro index inside
    have keyInside : index < (Entries.keys members).length := by simpa [Entries.keys] using inside
    have named : members[index].1 = (Entries.keys members)[index] := by simp [Entries.keys]
    rw [rank, named, distinct.idxOf_getElem]
  rwa [place, place]

/-- What stands behind a step comes after the whole. -/
theorem precedes_of_mem_flatMap_behind {α : Type} {value : Value} {parts : List α}
    {step : α → Step} {inner : α → List Position} :
    ∀ position ∈ parts.flatMap fun part => (inner part).map (Position.behind (step part)),
      value.Precedes [] position.path := by
  intro position member
  obtain ⟨part, -, behind⟩ := List.mem_flatMap.mp member
  obtain ⟨below, -, rfl⟩ := List.mem_map.mp behind
  exact .whole

theorem precedes_of_mem_map_behind {value : Value} {first second : Step}
    (before : value.rank first < value.rank second) (front back : List Position) :
    ∀ left ∈ front.map (Position.behind first), ∀ right ∈ back.map (Position.behind second),
      value.Precedes left.path right.path := by
  intro left leftMember right rightMember
  obtain ⟨inner, -, rfl⟩ := List.mem_map.mp leftMember
  obtain ⟨other, -, rfl⟩ := List.mem_map.mp rightMember
  exact .beside before

theorem pairwise_map_behind {value part : Value} {step : Step}
    (held : value.part? step = some part) {positions : List Position}
    (ordered : positions.Pairwise fun first second => part.Precedes first.path second.path) :
    (positions.map (Position.behind step)).Pairwise fun first second =>
      value.Precedes first.path second.path :=
  ordered.map _ fun _ _ inner => .within held inner

/-- The positions of a value are in the order of the document. -/
theorem WellKeyed.pairwise_positions {value : Value} (wellKeyed : value.WellKeyed) :
    value.positions.Pairwise fun first second => value.Precedes first.path second.path := by
  induction wellKeyed with
  | @array items each ih =>
      rw [positions, List.pairwise_cons, itemPositions_eq_flatMap, List.pairwise_flatMap]
      refine ⟨precedes_of_mem_flatMap_behind, ?_, ?_⟩
      · rintro ⟨item, index⟩ member
        have found : (Value.array items).part? (.item index) = some item := by
          simpa [part?] using List.mem_zipIdx_iff_getElem?.mp member
        exact pairwise_map_behind found (ih item (List.mem_of_getElem? found))
      · have places : (items.zipIdx.map Prod.snd).Pairwise (· < ·) := by
          rw [List.zipIdx_map_snd]
          exact List.pairwise_lt_range'
        apply (List.pairwise_map.mp places).imp
        intro first second before
        have ranked : (Value.array items).rank (.item first.2) <
            (Value.array items).rank (.item second.2) := before
        exact precedes_of_mem_map_behind ranked _ _
  | @object members distinct each ih =>
      rw [positions, List.pairwise_cons, memberPositions_eq_flatMap, List.pairwise_flatMap]
      refine ⟨precedes_of_mem_flatMap_behind, ?_, ?_⟩
      · intro member inside
        have found : (Value.object members).part? (.member member.1) = some member.2 :=
          Entries.get?_of_mem distinct inside
        exact pairwise_map_behind found (ih member inside)
      · apply (pairwise_rank distinct).imp
        intro first second before
        exact precedes_of_mem_map_behind before _ _
  | _ => exact List.pairwise_singleton _ _

end Order

section Visiting

/-- A path leads to a part, and the last step and no step before it has the key. -/
def StandsUnder (value : Value) (key : String) (path : List Step) (part : Value) : Prop :=
  value.at? path = some part ∧ ∃ way, path = way ++ [.member key] ∧ .member key ∉ way

/-- The positions at which a key comes first. -/
def visits (value : Value) (key : String) : List Position :=
  value.positions.filter (Position.isFirstUnder key)

theorem keyed_eq_map_visits (key : String) (value : Value) :
    value.keyed key = (value.visits key).map Position.value :=
  keyed_eq_firstUnder key value

theorem mem_visits_iff {value part : Value} (wellKeyed : value.WellKeyed) {key : String}
    {path : List Step} : ⟨path, part⟩ ∈ value.visits key ↔ value.StandsUnder key path part := by
  rw [visits, List.mem_filter, isFirstUnder_iff, mem_positions_iff_at? wellKeyed, StandsUnder]

theorem WellKeyed.pairwise_visits {value : Value} (wellKeyed : value.WellKeyed) (key : String) :
    (value.visits key).Pairwise fun first second => value.Precedes first.path second.path :=
  wellKeyed.pairwise_positions.filter _

theorem WellKeyed.nodup_paths {value : Value} (wellKeyed : value.WellKeyed) (key : String) :
    ((value.visits key).map Position.path).Nodup := by
  apply List.pairwise_map.mpr
  apply (wellKeyed.pairwise_visits key).imp
  intro first second before same
  rw [same] at before
  exact not_precedes_self _ _ before

end Visiting

section References

/-- What is selected at a place comes from a place of the whole list, and what is selected in
front of it is selected from what stands in front of it. -/
theorem exists_split_of_filterMap_eq {α β : Type} {items : List α} {select : α → Option β}
    {front back : List β} {found : β} (selected : items.filterMap select = front ++ found :: back) :
    ∃ before item behind, items = before ++ item :: behind ∧ select item = some found ∧
      ∀ early ∈ before, ∀ other, select early = some other → other ∈ front := by
  obtain ⟨start, rest, rfl, startSelected, restSelected⟩ :=
    List.filterMap_eq_append_iff.mp selected
  obtain ⟨passed, item, behind, rfl, unselected, named, -⟩ :=
    List.filterMap_eq_cons_iff.mp restSelected
  refine ⟨start ++ passed, item, behind, (List.append_assoc _ _ _).symm, named, ?_⟩
  intro early member other isOther
  rcases List.mem_append.mp member with inStart | inPassed
  · rw [← startSelected]
    exact List.mem_filterMap.mpr ⟨early, inStart, isOther⟩
  · rw [unselected early inPassed] at isOther
    cases isOther

/-- Of two first occurrences the one that is listed first comes first among all. -/
theorem pairwise_eraseDups (names : List String) :
    names.eraseDups.Pairwise fun first second =>
      ∃ front back, names = front ++ first :: back ∧ second ∉ front ∧ second ≠ first := by
  match names with
  | [] => simp
  | name :: names =>
      let others := names.filter fun other => !other == name
      have isOther : ∀ {other}, other ∈ others.eraseDups → (!other == name) = true := by
        intro other member
        exact (List.mem_filter.mp (List.mem_eraseDups.mp member)).2
      rw [List.eraseDups_cons, List.pairwise_cons]
      constructor
      · intro second member
        have different : second ≠ name := by simpa using isOther member
        exact ⟨[], names, rfl, List.not_mem_nil, different⟩
      · apply (pairwise_eraseDups others).imp_of_mem
        rintro first second - member ⟨front, back, whole, fresh, different⟩
        rw [show others = names.filterMap (Option.guard fun other => !other == name) from
          (congrFun List.filterMap_eq_filter names).symm] at whole
        obtain ⟨before, item, behind, rfl, kept, early⟩ := exists_split_of_filterMap_eq whole
        obtain ⟨rfl, -⟩ := Option.guard_eq_some_iff.mp kept
        have differs : second ≠ name := by simpa using isOther member
        refine ⟨name :: before, behind, rfl, ?_, different⟩
        rintro (_ | ⟨_, inside⟩)
        · exact differs rfl
        · exact fresh (early second inside second
            (Option.guard_eq_some_iff.mpr ⟨rfl, isOther member⟩))
termination_by names.length
decreasing_by
  simpa using Nat.lt_succ_of_le (List.length_filter_le _ _)

/-- The value at the end of the path is visited, and it is a reference to the name. -/
def RefersThrough (value : Value) (path : List Step) (name : String) : Prop :=
  value.StandsUnder "$ref" path (.string ("#/components/schemas/" ++ name))

/-- The name to which the value at a position is a reference. -/
def Position.referencedName? (position : Position) : Option String :=
  position.value.string?.bind ApiAssembly.referencedName?

theorem referenceNames_eq_filterMap (value : Value) :
    value.referenceNames = (value.visits "$ref").filterMap Position.referencedName? := by
  rw [referenceNames, keyed_eq_map_visits, List.filterMap_map]
  rfl

theorem Position.referencedName?_eq_some_iff {position : Position} {name : String} :
    position.referencedName? = some name ↔
      position.value = .string ("#/components/schemas/" ++ name) ∧ name ≠ "" := by
  rw [Position.referencedName?, Option.bind_eq_some_iff]
  constructor
  · rintro ⟨text, written, named⟩
    obtain ⟨rfl, nonempty⟩ := ApiAssembly.referencedName?_eq_some_iff.mp named
    exact ⟨string?_eq_some_iff.mp written, nonempty⟩
  · rintro ⟨written, nonempty⟩
    exact ⟨_, string?_eq_some_iff.mpr written,
      ApiAssembly.referencedName?_eq_some_iff.mpr ⟨rfl, nonempty⟩⟩

theorem WellKeyed.mem_schemaReferences_iff {value : Value} (wellKeyed : value.WellKeyed)
    {name : String} :
    name ∈ value.schemaReferences ↔ name ≠ "" ∧ ∃ path, value.RefersThrough path name := by
  rw [mem_schemaReferences, referenceNames_eq_filterMap, List.mem_filterMap]
  constructor
  · rintro ⟨⟨path, part⟩, visited, named⟩
    obtain ⟨rfl, nonempty⟩ := Position.referencedName?_eq_some_iff.mp named
    exact ⟨nonempty, path, (mem_visits_iff wellKeyed).mp visited⟩
  · rintro ⟨nonempty, path, refers⟩
    exact ⟨_, (mem_visits_iff wellKeyed).mpr refers,
      Position.referencedName?_eq_some_iff.mpr ⟨rfl, nonempty⟩⟩

/-- A name is listed before another if its first reference is visited before all of the other. -/
theorem WellKeyed.pairwise_schemaReferences {value : Value} (wellKeyed : value.WellKeyed) :
    value.schemaReferences.Pairwise fun first second =>
      ∃ path, value.RefersThrough path first ∧
        ∀ other, value.RefersThrough other second → value.Precedes path other := by
  rw [schemaReferences_eq_eraseDups]
  apply (pairwise_eraseDups _).imp_of_mem
  rintro first second - member ⟨front, back, whole, fresh, different⟩
  have nonempty := (wellKeyed.mem_schemaReferences_iff.mp
    (mem_schemaReferences.mpr (List.mem_eraseDups.mp member))).1
  rw [referenceNames_eq_filterMap] at whole
  obtain ⟨before, ⟨path, part⟩, behind, split, named, early⟩ := exists_split_of_filterMap_eq whole
  obtain ⟨rfl, -⟩ := Position.referencedName?_eq_some_iff.mp named
  have visited : ⟨path, .string ("#/components/schemas/" ++ first)⟩ ∈ value.visits "$ref" := by
    rw [split]
    exact List.mem_append_right _ List.mem_cons_self
  refine ⟨path, (mem_visits_iff wellKeyed).mp visited, ?_⟩
  intro other refers
  have later := (mem_visits_iff wellKeyed).mpr refers
  have otherNamed :
      (Position.mk other (.string ("#/components/schemas/" ++ second))).referencedName? =
        some second := Position.referencedName?_eq_some_iff.mpr ⟨rfl, nonempty⟩
  have ordered := wellKeyed.pairwise_visits "$ref"
  rw [split, List.pairwise_append] at ordered
  rw [split, List.mem_append, List.mem_cons] at later
  rcases later with inFront | same | inBack
  · exact absurd (early _ inFront second otherNamed) fresh
  · rw [same, named, Option.some.injEq] at otherNamed
    exact absurd otherNamed.symm different
  · exact List.rel_of_pairwise_cons ordered.2.1 inBack

end References

/-- The values under a key are visited in the order of the document and each at one place, and
these places are the paths that come to the key with their last step and not before.  The
schemas that a value refers to are the names in the references so visited, each once and in the
order of the first visits. -/
theorem keyed_and_schemaReferences_in_order {value : Value} (wellKeyed : value.WellKeyed) :
    (∀ key, ∃ visited : List Position,
      value.keyed key = visited.map Position.value ∧
        (visited.map Position.path).Nodup ∧
        visited.Pairwise (fun first second => value.Precedes first.path second.path) ∧
        ∀ path part, ⟨path, part⟩ ∈ visited ↔ value.StandsUnder key path part) ∧
      value.schemaReferences.Nodup ∧
      (∀ name, name ∈ value.schemaReferences ↔
        name ≠ "" ∧ ∃ path, value.RefersThrough path name) ∧
      value.schemaReferences.Pairwise fun first second =>
        ∃ path, value.RefersThrough path first ∧
          ∀ other, value.RefersThrough other second → value.Precedes path other :=
  ⟨fun key => ⟨value.visits key, keyed_eq_map_visits key value, wellKeyed.nodup_paths key,
      wellKeyed.pairwise_visits key, fun _ _ => mem_visits_iff wellKeyed⟩,
    nodup_schemaReferences value, fun _ => wellKeyed.mem_schemaReferences_iff,
    wellKeyed.pairwise_schemaReferences⟩

/-- A document with a schema that is referred to twice, a reference to something else, a member
`$ref` that is no text, and a reference within what stands under `$ref`. -/
def referringDocument : Value :=
  .object [("paths", .object [
      ("/a", .object [("$ref", .string "#/components/schemas/Foo")]),
      ("/b", .array [.object [("$ref", .string "#/components/responses/r2")],
        .object [("$ref", .string "#/components/schemas/Bar")],
        .object [("$ref", .string "#/components/schemas/Foo")]])]),
    ("odd", .object [("$ref", .object [("$ref", .string "#/components/schemas/Hidden")])])]

/-- The first reference to `Foo` comes before every reference to `Bar`. -/
theorem schemaReferences_referringDocument :
    referringDocument.WellKeyed ∧ referringDocument.schemaReferences = ["Foo", "Bar"] ∧
      (referringDocument.keyed "$ref").length = 5 ∧
      ∃ path, referringDocument.RefersThrough path "Foo" ∧
        ∀ other, referringDocument.RefersThrough other "Bar" →
          referringDocument.Precedes path other := by
  have wellKeyed : referringDocument.WellKeyed := by decide
  have names : referringDocument.schemaReferences = ["Foo", "Bar"] := by decide
  obtain ⟨-, -, -, ordered⟩ := keyed_and_schemaReferences_in_order wellKeyed
  rw [names, List.pairwise_pair] at ordered
  exact ⟨wellKeyed, names, rfl, ordered⟩

end Value

end ApiAssembly
