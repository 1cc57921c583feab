import ApiAssembly.Proofs.Typedef.Tree

/-!
# Paths in the tree of the declarations

A path leads from a place to a place within it.  Along it one finds the schema of the
place at its end, further declarations do not divert it, and a change at its end that
agrees with what is said there gives the schema of everything that is said.
-/

namespace ApiAssembly

open Comment (Tag)

namespace Typedef

/-- The names of the declared parts are distinct. -/
def DistinctNames (tags : List Tag) : Prop :=
  ((declarations tags).map Tag.name).Nodup

/-- A path from a place to a place, each with the schema that was declared there. -/
inductive Leads (tags : List Tag) :
    List String → Schema → List Step → List String → Schema → Prop where
  | here (place : List String) (own : Schema) : Leads tags place own [] place own
  | part {place target : List String} {own found : Schema} {front back : List Tag} {tag : Tag}
      {path : List Step} (parts : partsAt tags place = front ++ tag :: back)
      (rest : Leads tags (segments tag.name) (declaredSchema tag) path target found) :
      Leads tags place own (own.stepTo front.length (leafOf tag) :: path) target found

theorem nodup_names_partsAt {tags : List Tag} (distinct : DistinctNames tags)
    (place : List String) : ((partsAt tags place).map Tag.name).Nodup :=
  distinct.sublist (List.filter_sublist.map Tag.name)

/-- Parts of one place that are called the same there are the same. -/
theorem nodup_leaves {tags : List Tag} (distinct : DistinctNames tags) (place : List String) :
    ((partsAt tags place).map leafOf).Nodup := by
  have names := nodup_names_partsAt distinct place
  apply names.of_map.map_on
  intro first inFirst second inSecond sameLeaf
  have sameSegments : segments first.name = segments second.name := by
    rw [segments_eq_of_mem_partsAt inFirst, segments_eq_of_mem_partsAt inSecond, sameLeaf]
  exact List.inj_on_of_nodup_map names inFirst inSecond (segments_injective sameSegments)

theorem leaves_map_partOf (tags others : List Tag) (place : List String) :
    ((partsAt tags place).map (partOf others)).map Part.leaf =
      (partsAt tags place).map leafOf := by
  rw [List.map_map]
  rfl

section Step

variable {tags : List Tag} {place : List String} {front back : List Tag} {tag : Tag}

/-- The step to a declared part leads to its schema. -/
theorem part?_schemaAt (distinct : DistinctNames tags)
    (parts : partsAt tags place = front ++ tag :: back) (own : Schema) :
    (schemaAt tags place own).part? (own.stepTo front.length (leafOf tag)) =
      some (schemaAt tags (segments tag.name) (declaredSchema tag)) := by
  have leaves := nodup_leaves distinct place
  rw [parts, List.map_append, List.map_cons, List.nodup_middle, List.nodup_cons] at leaves
  have fresh : leafOf tag ∉ (front.map (partOf tags)).map Part.leaf := by
    rw [List.map_map]
    exact fun member => leaves.1 (List.mem_append_left _ member)
  have step : (own.withParts (front.map (partOf tags) ++
      partOf tags tag :: back.map (partOf tags))).part?
        (own.stepTo (front.map (partOf tags)).length (leafOf tag)) =
      some (partOf tags tag).schema := Schema.part?_withParts fresh
  rw [List.length_map] at step
  rw [schemaAt_eq, parts, List.map_append, List.map_cons, Schema.part?_withExtensions, step]
  rfl

/-- Only one of the parts of a place leads to a place within it. -/
theorem not_prefix_sibling (distinct : DistinctNames tags)
    (parts : partsAt tags place = front ++ tag :: back) {target : List String}
    (inside : segments tag.name <+: target) {sibling : Tag} (among : sibling ∈ front ++ back) :
    ¬ segments sibling.name <+: target := by
  intro alsoInside
  have names := nodup_names_partsAt distinct place
  rw [parts, List.map_append, List.map_cons, List.nodup_middle, List.nodup_cons,
    ← List.map_append] at names
  have member : ∀ part ∈ tag :: (front ++ back), part ∈ partsAt tags place := by
    intro part within
    rw [parts]
    exact List.perm_middle.mem_iff.mpr within
  have tagSegments := segments_eq_of_mem_partsAt (member tag (by simp))
  have siblingSegments := segments_eq_of_mem_partsAt
    (member sibling (List.mem_cons_of_mem tag among))
  have sameLength : (segments sibling.name).length = (segments tag.name).length := by
    rw [tagSegments, siblingSegments, List.length_append, List.length_append]
    rfl
  have sameSegments := (List.prefix_of_prefix_length_le alsoInside inside
    (Nat.le_of_eq sameLength)).eq_of_length sameLength
  exact names.1 (List.mem_map.mpr ⟨sibling, among, segments_injective sameSegments⟩)

/-- If the part that leads to the one place of disagreement has the schema of the others,
then all parts have. -/
theorem withPart_schemaAt {others : List Tag} {target : List String} {own : Schema}
    (distinct : DistinctNames tags) (undivided : own.Undivided)
    (parts : partsAt tags place = front ++ tag :: back)
    (agree : AgreeExcept target tags others) (inside : segments tag.name <+: target) :
    (schemaAt tags place own).withPart (own.stepTo front.length (leafOf tag))
        (schemaAt others (segments tag.name) (declaredSchema tag)) =
      schemaAt others place own := by
  have leaves := nodup_leaves distinct place
  rw [← leaves_map_partOf tags tags place, parts, List.map_append, List.map_cons] at leaves
  have replaced := Schema.withPart_withParts undivided leaves
    (schemaAt others (segments tag.name) (declaredSchema tag))
  have member : tag ∈ partsAt tags place := by simp [parts]
  have elsewhere := ne_of_prefix_of_mem_partsAt member inside
  have siblings : ∀ sibling ∈ front ++ back, partOf tags sibling = partOf others sibling := by
    intro sibling among
    rw [partOf, partOf, agree.schemaAt_eq (not_prefix_sibling distinct parts inside among)]
  have inFront := List.map_congr_left fun sibling among =>
    siblings sibling (List.mem_append_left back among)
  have inBack := List.map_congr_left fun sibling among =>
    siblings sibling (List.mem_append_right front among)
  rw [List.length_map] at replaced
  rw [schemaAt_eq tags place own, schemaAt_eq others place own, ← agree.parts place elsewhere,
    ← agree.keywords place elsewhere, parts, List.map_append, List.map_cons, List.map_append,
    List.map_cons, Schema.withPart_withExtensions, ← inFront, ← inBack]
  exact congrArg (Schema.withExtensions · (keywordsAt tags place)) replaced

end Step

namespace Leads

variable {tags : List Tag} {place target : List String} {own found : Schema} {path : List Step}

theorem isPrefix (leads : Leads tags place own path target found) : place <+: target := by
  induction leads with
  | here place own => exact List.prefix_refl place
  | @part place _ _ _ front back tag _ parts rest ih =>
      have member : tag ∈ partsAt tags place := by simp [parts]
      exact (prefix_of_mem_partsAt member).trans ih

/-- The schema at the end of a path is that of the place. -/
theorem at? (distinct : DistinctNames tags) (leads : Leads tags place own path target found) :
    (schemaAt tags place own).at? path = some (schemaAt tags target found) := by
  induction leads with
  | here place own => rfl
  | @part _ _ own _ _ _ _ _ parts _ ih =>
      rw [Schema.at?, part?_schemaAt distinct parts own]
      exact ih

theorem concat (leads : Leads tags place own path target found) {front back : List Tag}
    {tag : Tag} (parts : partsAt tags target = front ++ tag :: back) :
    Leads tags place own (path ++ [found.stepTo front.length (leafOf tag)])
      (segments tag.name) (declaredSchema tag) := by
  induction leads with
  | here place own => exact .part parts (.here _ _)
  | part before rest ih => exact .part before (ih parts)

/-- A further tag leaves every path as it is. -/
theorem append (leads : Leads tags place own path target found) (tag : Tag) :
    Leads (tags ++ [tag]) place own path target found := by
  induction leads with
  | here place own => exact .here place own
  | @part place _ _ _ front back part _ parts rest ih =>
      by_cases declares : tag.title = "property"
      · have further := partsAt_concat tags place declares
        rw [parts] at further
        split at further
        · exact .part (by rw [further, List.append_assoc, List.cons_append]) ih
        · exact .part further ih
      · exact .part (by rw [partsAt_concat_of_ne tags place declares, parts]) ih

/-- A change at the end of a path changes what is said there. -/
theorem modifyAt {others : List Tag} {change : Schema → Schema} (distinct : DistinctNames tags)
    (undivided : own.Undivided) (leads : Leads tags place own path target found)
    (agree : AgreeExcept target tags others)
    (changed : change (schemaAt tags target found) = schemaAt others target found) :
    (schemaAt tags place own).modifyAt change path = schemaAt others place own := by
  -- On the way only the part that leads on is replaced: no sibling's place is a prefix of
  -- the target, so both lists of tags give the siblings the same schemas.
  induction leads with
  | here place own => exact changed
  | @part place target own found front back tag path parts rest ih =>
      have inner := ih (undivided_declaredSchema tag) agree changed
      rw [Schema.modifyAt, part?_schemaAt distinct parts own]
      simp only [inner]
      exact withPart_schemaAt distinct undivided parts agree rest.isPrefix

end Leads

end Typedef

end ApiAssembly
