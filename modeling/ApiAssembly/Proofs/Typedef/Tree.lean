import ApiAssembly.Proofs.Typedef.Conversion
import ApiAssembly.Proofs.Typedef.Segments
import ApiAssembly.Proofs.Value.Reference

/-!
# The tree of the declarations

What the tags of a comment say about a place, without regard to the order in which a
schema is put together: the parts that are declared there and the keywords that are set
there.  The schema of a place follows from these and from the schemas of its parts.  A
further tag changes what is said about one place at most, and places that do not lead
there keep their schemas.
-/

namespace ApiAssembly

open Comment (Tag)

/-- Keys in the order of their first setting, each with the value that was set last. -/
def Entries.settled {α : Type} (settings : Entries α) : Entries α :=
  tabulate (keys settings).eraseDups fun key => get? key settings.reverse

theorem Entries.keys_settled {α : Type} (settings : Entries α) :
    keys (settled settings) = (keys settings).eraseDups := by
  rw [settled, keys_tabulate]
  intro key member
  rw [List.mem_eraseDups] at member
  have present : key ∈ keys settings.reverse := by simpa [keys] using member
  exact Option.isSome_iff_exists.mpr (exists_get?_of_mem_keys present)

theorem Entries.get?_settled {α : Type} (settings : Entries α) (key : String) :
    get? key (settled settings) = get? key settings.reverse := by
  by_cases member : key ∈ keys settings
  · exact get?_tabulate (List.mem_eraseDups.mpr member)
  · have absent : get? key settings.reverse = none := by
      rw [get?_eq_none_iff]
      simpa [keys] using member
    rw [absent, get?_eq_none_iff, keys_settled, List.mem_eraseDups]
    exact member

/-- A further setting is the last one of its key. -/
theorem Entries.settled_concat {α : Type} (settings : Entries α) (key : String) (value : α) :
    settled (settings ++ [(key, value)]) = put key value (settled settings) := by
  apply ext_of_nodup
  · rw [keys_put, keys_settled, keys_settled, keys_append, List.eraseDups_append]
    by_cases present : key ∈ keys settings <;>
      simp [present, List.removeAll, List.eraseDups_cons]
  · rw [keys_settled]
    exact nodup_eraseDups _
  · intro name _
    rw [get?_put, get?_settled, get?_settled, List.reverse_append]
    rfl

namespace Typedef

/-- The tags that declare parts. -/
def declarations (tags : List Tag) : List Tag :=
  tags.filter fun tag => tag.title = "property"

/-- The schema that a tag declares, without what other tags say. -/
def declaredSchema (tag : Tag) : Schema :=
  match propertySchema tag with
  | .ok schema => schema
  | .error _ => {}

theorem undivided_declaredSchema (tag : Tag) : (declaredSchema tag).Undivided := by
  rw [declaredSchema]
  split
  · rename_i success
    exact undivided_of_propertySchema success
  · exact Schema.undivided_of_absent rfl rfl rfl rfl List.nodup_nil

/-- The name of a declared part within the part to which it belongs. -/
def leafOf (tag : Tag) : String :=
  (segments tag.name).getLastD ""

/-- The declared parts at a place, in order: their names have one segment more. -/
def partsAt (tags : List Tag) (place : List String) : List Tag :=
  (declarations tags).filter fun tag => (segments tag.name).dropLast = place

/-- The keywords that tags set at a place, in order and with repetitions. -/
def settingsAt (tags : List Tag) (place : List String) : Entries String :=
  (tags.filter fun tag =>
      tag.title = "propertyOpenapi" ∧ tag.name ≠ "" ∧ segments tag.typeText = place).map
    fun tag => (tag.name, tag.description)

/-- The keywords at a place in the order of their first setting, each as it was set last. -/
def keywordsAt (tags : List Tag) (place : List String) : Entries String :=
  Entries.settled (settingsAt tags place)

/-- The number of all segments, which bounds the number of segments of every declared name. -/
def segmentCount (tags : List Tag) : Nat :=
  ((declarations tags).map fun tag => segments tag.name).flatten.length

theorem mem_partsAt {tags : List Tag} {place : List String} {tag : Tag} :
    tag ∈ partsAt tags place ↔
      tag ∈ declarations tags ∧ (segments tag.name).dropLast = place := by
  simp [partsAt]

theorem segments_eq_of_mem_partsAt {tags : List Tag} {place : List String} {tag : Tag}
    (member : tag ∈ partsAt tags place) : segments tag.name = place ++ [leafOf tag] := by
  have nonempty := segments_ne_nil tag.name
  rw [← (mem_partsAt.mp member).2, leafOf, List.getLastD_eq_getLast?,
    List.getLast?_eq_some_getLast nonempty, Option.getD_some, List.dropLast_append_getLast]

theorem prefix_of_mem_partsAt {tags : List Tag} {place : List String} {tag : Tag}
    (member : tag ∈ partsAt tags place) : place <+: segments tag.name :=
  ⟨[leafOf tag], (segments_eq_of_mem_partsAt member).symm⟩

/-- Going to a part leaves fewer segments to go. -/
theorem segmentCount_sub_lt {tags : List Tag} {place : List String} {tag : Tag}
    (member : tag ∈ partsAt tags place) :
    segmentCount tags - (segments tag.name).length < segmentCount tags - place.length := by
  have deeper := congrArg List.length (segments_eq_of_mem_partsAt member)
  have among : segments tag.name ∈ (declarations tags).map fun tag => segments tag.name :=
    List.mem_map.mpr ⟨tag, (mem_partsAt.mp member).1, rfl⟩
  have bound : (segments tag.name).length ≤ segmentCount tags :=
    (List.sublist_flatten_of_mem among).length_le
  rw [List.length_append, List.length_singleton] at deeper
  omega

/-- The schema at a place from the schema that was declared there. -/
def schemaAt (tags : List Tag) (place : List String) (own : Schema) : Schema :=
  (own.withParts ((partsAt tags place).attach.map fun ⟨part, _member⟩ =>
    ⟨leafOf part, part.optional,
      schemaAt tags (segments part.name) (declaredSchema part)⟩)).withExtensions
        (keywordsAt tags place)
termination_by segmentCount tags - place.length
decreasing_by exact segmentCount_sub_lt _member

/-- A declared part with its whole schema. -/
def partOf (tags : List Tag) (tag : Tag) : Part :=
  ⟨leafOf tag, tag.optional, schemaAt tags (segments tag.name) (declaredSchema tag)⟩

theorem schemaAt_eq (tags : List Tag) (place : List String) (own : Schema) :
    schemaAt tags place own =
      (own.withParts ((partsAt tags place).map (partOf tags))).withExtensions
        (keywordsAt tags place) := by
  rw [schemaAt, ← List.attach_map_val (f := partOf tags)]
  rfl

/-- The schema at a place depends only on what is said about the places within it. -/
theorem schemaAt_congr {tags others : List Tag} {place : List String} {own : Schema}
    (sameParts : ∀ inner, place <+: inner → partsAt tags inner = partsAt others inner)
    (sameKeywords : ∀ inner, place <+: inner → keywordsAt tags inner = keywordsAt others inner) :
    schemaAt tags place own = schemaAt others place own := by
  rw [schemaAt_eq, schemaAt_eq, ← sameParts place (List.prefix_refl place),
    ← sameKeywords place (List.prefix_refl place)]
  congr 2
  apply List.map_congr_left
  intro tag member
  have inside := prefix_of_mem_partsAt member
  have sameSchema : schemaAt tags (segments tag.name) (declaredSchema tag) =
      schemaAt others (segments tag.name) (declaredSchema tag) :=
    schemaAt_congr (fun inner within => sameParts inner (inside.trans within))
      fun inner within => sameKeywords inner (inside.trans within)
  rw [partOf, partOf, sameSchema]
termination_by segmentCount tags - place.length
decreasing_by exact segmentCount_sub_lt member

/-- Where nothing is said, a schema is as it was declared. -/
theorem schemaAt_of_silent {tags : List Tag} {place : List String} {own : Schema}
    (noParts : partsAt tags place = []) (noSettings : settingsAt tags place = [])
    (plain : own.extensions = []) : schemaAt tags place own = own := by
  rw [schemaAt_eq, noParts, keywordsAt, noSettings]
  cases own
  cases plain
  rfl

section Concat

variable (tags : List Tag) {tag : Tag} (place : List String)

theorem declarations_concat (declares : tag.title = "property") :
    declarations (tags ++ [tag]) = declarations tags ++ [tag] := by
  simp [declarations, declares]

theorem declarations_concat_of_ne (silent : tag.title ≠ "property") :
    declarations (tags ++ [tag]) = declarations tags := by
  simp [declarations, silent]

theorem partsAt_concat (declares : tag.title = "property") :
    partsAt (tags ++ [tag]) place =
      if (segments tag.name).dropLast = place then partsAt tags place ++ [tag]
      else partsAt tags place := by
  rw [partsAt, declarations_concat tags declares, List.filter_append]
  split
  · rename_i here
    simp [here, partsAt]
  · rename_i elsewhere
    simp [elsewhere, partsAt]

theorem partsAt_concat_of_ne (silent : tag.title ≠ "property") :
    partsAt (tags ++ [tag]) place = partsAt tags place := by
  rw [partsAt, declarations_concat_of_ne tags silent, partsAt]

theorem settingsAt_concat (sets : tag.title = "propertyOpenapi") (named : tag.name ≠ "") :
    settingsAt (tags ++ [tag]) place =
      if segments tag.typeText = place then
        settingsAt tags place ++ [(tag.name, tag.description)]
      else settingsAt tags place := by
  split
  · rename_i here
    simp [settingsAt, sets, named, here]
  · rename_i elsewhere
    simp [settingsAt, elsewhere]

theorem settingsAt_concat_of_unnamed (unnamed : tag.name = "") :
    settingsAt (tags ++ [tag]) place = settingsAt tags place := by
  simp [settingsAt, unnamed]

theorem settingsAt_concat_of_ne (silent : tag.title ≠ "propertyOpenapi") :
    settingsAt (tags ++ [tag]) place = settingsAt tags place := by
  simp [settingsAt, silent]

end Concat

/-- Two lists of tags say the same about every place but one. -/
structure AgreeExcept (target : List String) (tags others : List Tag) : Prop where
  parts : ∀ place, place ≠ target → partsAt tags place = partsAt others place
  keywords : ∀ place, place ≠ target → keywordsAt tags place = keywordsAt others place

theorem AgreeExcept.schemaAt_eq {target place : List String} {tags others : List Tag}
    (agree : AgreeExcept target tags others) (outside : ¬ place <+: target) (own : Schema) :
    schemaAt tags place own = schemaAt others place own := by
  apply schemaAt_congr
  · rintro inner within
    exact agree.parts inner fun same => outside (same ▸ within)
  · rintro inner within
    exact agree.keywords inner fun same => outside (same ▸ within)

theorem ne_of_prefix_of_mem_partsAt {tags : List Tag} {place target : List String} {tag : Tag}
    (member : tag ∈ partsAt tags place) (inside : segments tag.name <+: target) :
    place ≠ target := by
  rintro rfl
  have bound := inside.length_le
  rw [segments_eq_of_mem_partsAt member, List.length_append, List.length_singleton] at bound
  omega

theorem not_prefix_of_mem_partsAt {tags : List Tag} {target : List String} {tag : Tag}
    (member : tag ∈ partsAt tags target) : ¬ segments tag.name <+: target := by
  intro inside
  exact ne_of_prefix_of_mem_partsAt member inside rfl

/-- The parts at the place of disagreement have the same schemas. -/
theorem AgreeExcept.map_partOf {target : List String} {tags others : List Tag}
    (agree : AgreeExcept target tags others) :
    (partsAt tags target).map (partOf tags) = (partsAt tags target).map (partOf others) := by
  apply List.map_congr_left
  intro tag member
  rw [partOf, partOf, agree.schemaAt_eq (not_prefix_of_mem_partsAt member)]

theorem agreeExcept_concat_declaration (tags : List Tag) {tag : Tag}
    (declares : tag.title = "property") :
    AgreeExcept (segments tag.name).dropLast tags (tags ++ [tag]) where
  parts place elsewhere := by
    rw [partsAt_concat tags place declares, if_neg (Ne.symm elsewhere)]
  keywords place _ := by
    have silent : tag.title ≠ "propertyOpenapi" := declares ▸ by decide
    rw [keywordsAt, keywordsAt, settingsAt_concat_of_ne tags place silent]

theorem agreeExcept_concat_setting (tags : List Tag) {tag : Tag}
    (sets : tag.title = "propertyOpenapi") (named : tag.name ≠ "") :
    AgreeExcept (segments tag.typeText) tags (tags ++ [tag]) where
  parts place _ := by
    have silent : tag.title ≠ "property" := sets ▸ by decide
    rw [partsAt_concat_of_ne tags place silent]
  keywords place elsewhere := by
    rw [keywordsAt, keywordsAt, settingsAt_concat tags place sets named,
      if_neg (Ne.symm elsewhere)]

end Typedef

end ApiAssembly
