import ApiAssembly.Proofs.Document.MissingReference
import ApiAssembly.Proofs.Document.Sections

/-!
# Provision among the sections

Providing schemas changes the components of a document only, so it takes place behind the
seed and among the sections.  It lets the document grow in the same way as merging does:
components and schemas are new members, and so is every schema that is added.
-/

namespace ApiAssembly.Document

section Sections

variable {front : Members} (absent : "components" ∉ Entries.keys front) (back : Members)

include absent

theorem openSchemas_append : openSchemas (front ++ back) = front ++ openSchemas back := by
  rw [openSchemas, openSchemas, Entries.contains, Entries.contains,
    Entries.get?_append_of_not_mem absent, Entries.update_append_of_not_mem absent]
  split
  · rfl
  · rw [List.append_assoc]

theorem extendSchemas_append (added : Members) :
    extendSchemas added (front ++ back) = front ++ extendSchemas added back := by
  rw [extendSchemas, openSchemas_append absent, Entries.update_append_of_not_mem absent,
    extendSchemas]

end Sections

theorem components_mem_mainSections : "components" ∈ mainSections := by
  decide

theorem schemas_mem_componentSections : "schemas" ∈ componentSections := by
  decide

theorem SectionedComponents.openComponents {value : Value}
    (sectioned : SectionedComponents value) : SectionedComponents (openComponents value) := by
  intro components shape key member
  cases value with
  | object members =>
      rw [Document.openComponents] at shape
      split at shape
      · exact sectioned components shape key member
      · rw [← Value.object.inj shape, Entries.keys_append, List.mem_append] at member
        rcases member with old | new
        · exact sectioned members rfl key old
        · rw [List.mem_singleton.mp new]
          exact schemas_mem_componentSections
  | _ => simp [Document.openComponents] at shape

theorem SectionedComponents.extendComponents {value : Value}
    (sectioned : SectionedComponents value) (added : Members) :
    SectionedComponents (extendComponents added value) := by
  intro components shape key member
  cases value with
  | object members =>
      rw [Document.extendComponents, Value.object.injEq] at shape
      rw [← shape, Entries.keys_update] at member
      exact sectioned members rfl key member
  | _ => simp [Document.extendComponents] at shape

/-- A change of the components that brings nothing foreign keeps sections. -/
theorem Sectioned.update {members : Members} (sectioned : Sectioned members)
    {change : Value → Value}
    (kept : ∀ value, SectionedComponents value → SectionedComponents (change value)) :
    Sectioned (Entries.update "components" change members) := by
  rw [sectioned_iff] at sectioned ⊢
  rw [Entries.keys_update]
  refine ⟨sectioned.1, fun value found => ?_⟩
  rw [Entries.get?_update, if_pos rfl, Option.map_eq_some_iff] at found
  obtain ⟨old, foundOld, rfl⟩ := found
  exact kept old (sectioned.2 old foundOld)

theorem Sectioned.openSchemas {members : Members} (sectioned : Sectioned members) :
    Sectioned (openSchemas members) := by
  rw [Document.openSchemas]
  split
  · exact sectioned.update fun value valueSectioned => valueSectioned.openComponents
  · rename_i closed
    rw [Entries.contains_iff] at closed
    constructor
    · intro key member
      rw [Entries.keys_append, List.mem_append] at member
      rcases member with old | new
      · exact sectioned.main key old
      · rw [List.mem_singleton.mp new]
        exact components_mem_mainSections
    · intro components found key member
      rw [Entries.get?_append_of_not_mem closed, Entries.get?, if_pos rfl, Option.some.injEq,
        Value.object.injEq] at found
      rw [← found] at member
      rw [List.mem_singleton.mp member]
      exact schemas_mem_componentSections

theorem Sectioned.extendSchemas {members : Members} (sectioned : Sectioned members)
    (added : Members) : Sectioned (extendSchemas added members) :=
  sectioned.openSchemas.update fun _ valueSectioned => valueSectioned.extendComponents added

section Growth

theorem wellKeyed_openComponents {value : Value} (wellKeyed : value.WellKeyed) :
    (openComponents value).WellKeyed := by
  cases value with
  | object components =>
      rw [openComponents]
      split
      · exact wellKeyed
      · rename_i closed
        rw [Entries.contains_iff] at closed
        exact Value.wellKeyed_append wellKeyed closed (.object List.nodup_nil (by simp))
  | _ => exact wellKeyed

theorem wellKeyed_openSchemas {document : Members}
    (wellKeyed : (Value.object document).WellKeyed) :
    (Value.object (openSchemas document)).WellKeyed := by
  rw [openSchemas]
  split
  · exact Value.wellKeyed_update wellKeyed (fun _ => wellKeyed_openComponents) "components"
  · rename_i closed
    rw [Entries.contains_iff] at closed
    refine Value.wellKeyed_append wellKeyed closed ?_
    exact .object (by simp) (by simpa using .object List.nodup_nil (by simp))

theorem grows_openComponents {value : Value} (wellKeyed : value.WellKeyed) :
    Value.Grows value (openComponents value) := by
  cases value with
  | object components =>
      rw [openComponents]
      split
      · exact .refl wellKeyed
      · rename_i closed
        rw [Entries.contains_iff] at closed
        exact Value.grows_append wellKeyed (Entries.nodup_keys_concat wellKeyed.distinct closed _)
  | _ => exact .refl wellKeyed

theorem grows_openSchemas {document : Members}
    (wellKeyed : (Value.object document).WellKeyed) :
    Value.Grows (.object document) (.object (openSchemas document)) := by
  rw [openSchemas]
  split
  · exact Value.grows_update wellKeyed fun _ found => grows_openComponents (wellKeyed.member found)
  · rename_i closed
    rw [Entries.contains_iff] at closed
    exact Value.grows_append wellKeyed (Entries.nodup_keys_concat wellKeyed.distinct closed _)

/-- Schemas of undefined names let a document grow. -/
theorem grows_extendSchemas {document added : Members}
    (wellKeyed : (Value.object document).WellKeyed) (distinct : (Entries.keys added).Nodup)
    (undefined : ∀ name ∈ Entries.keys added, defines document name = false) :
    Value.Grows (.object document) (.object (extendSchemas added document)) := by
  have opened := wellKeyed_openSchemas wellKeyed
  refine (grows_openSchemas wellKeyed).trans (Value.grows_update opened ?_)
  intro value componentsFound
  cases value with
  | object components =>
      apply Value.grows_update (opened.member componentsFound)
      intro inner schemasFound
      have innerKeyed := (opened.member componentsFound).member schemasFound
      cases inner with
      | object schemas =>
          refine Value.grows_append innerKeyed ?_
          rw [Entries.keys_append]
          apply innerKeyed.distinct.append distinct
          intro name old new
          have absent := undefined name new
          rw [← defines_openSchemas] at absent
          simp only [defines, schemas?, componentsFound, Option.bind_some,
            Value.member?_object, schemasFound, Value.object?_object, Option.any_some,
            Bool.eq_false_iff, ne_eq, Entries.contains_iff] at absent
          exact absent old
      | _ => exact .refl innerKeyed
  | _ => exact .refl (opened.member componentsFound)

end Growth

section Handling

variable {pool : String → Option Value} {document : Members} {names : List String}

theorem keys_offeredMembers (pool : String → Option Value) (document : Members)
    (names : List String) : Entries.keys (offeredMembers pool document names) =
      names.filter fun name => (offered? pool document name).isSome := by
  induction names with
  | nil => rfl
  | cons name names ih =>
      rw [show name :: names = [name] ++ names from rfl, offeredMembers_append,
        Entries.keys_append, ih, List.filter_append]
      cases found : offered? pool document name <;> simp [offeredMembers, found]

/-- Handling names lets a document grow. -/
theorem HandledNames.grows (handled : HandledNames pool document names)
    (wellKeyed : (Value.object document).WellKeyed) :
    Value.Grows (.object document) (.object (afterHandling pool document names).document) := by
  rw [afterHandling]
  split
  · exact .refl wellKeyed
  · apply grows_extendSchemas wellKeyed
    · rw [keys_offeredMembers]
      exact handled.distinct.filter _
    · intro name member
      exact handled.undefined name ((mem_keys_offeredMembers pool document).mp member).1

end Handling

/-- A fragment of sections with distinct keys at every depth. -/
def SoundFragment (fragment : Members) : Prop :=
  Sectioned fragment ∧ (Value.object fragment).WellKeyed

namespace Collection

variable {collection : Collection}

/-- The fragments of a collection are sections with distinct keys at every depth. -/
def Sound (collection : Collection) : Prop :=
  ∀ fragment ∈ collection.fragments, SoundFragment fragment

theorem Sound.wellKeyed_merged (sound : collection.Sound) :
    (Value.object collection.merged).WellKeyed :=
  Value.wellKeyed_mergeAll (wellKeyed_seed collection.info) fun fragment member =>
    (sound fragment member).2

/-- The merged document is the seed in front of sections. -/
theorem Sound.exists_merged (sound : collection.Sound) : ∃ sections : Members,
    collection.merged = seed collection.info ++ sections ∧ Sectioned sections := by
  refine ⟨Value.mergeAll [] collection.fragments, ?_, ?_⟩
  · rw [merged, ← mergeAll_seed_append _ _ fun fragment member => (sound fragment member).1,
      List.append_nil]
  · refine sectioned_mergeAll ⟨by simp, by simp⟩ fun fragment member => ?_
    exact ⟨(sound fragment member).1, (sound fragment member).2.distinct⟩

/-- The document of a collection is the seed in front of its own sections. -/
theorem Sound.document_eq (sound : collection.Sound) : collection.resolution.document =
    seed collection.info ++ normalize collection.resolution.document := by
  obtain ⟨names, final, -⟩ := collection.exists_handledNames
  obtain ⟨sections, merged, sectioned⟩ := sound.exists_merged
  have absent := not_mem_keys_seed components_mem_mainSections collection.info
  have split : ∃ grown, collection.resolution.document = seed collection.info ++ grown ∧
      Sectioned grown := by
    rw [final, merged, afterHandling]
    split
    · exact ⟨sections, rfl, sectioned⟩
    · exact ⟨_, extendSchemas_append absent _ _, sectioned.extendSchemas _⟩
  obtain ⟨grown, document, grownSectioned⟩ := split
  rw [document, normalize_seed_append, grownSectioned.normalize_eq]

theorem Sound.grows_resolution (sound : collection.Sound) :
    Value.Grows (.object collection.merged) (.object collection.resolution.document) := by
  obtain ⟨names, final, handled⟩ := collection.exists_handledNames
  rw [final]
  exact handled.grows sound.wellKeyed_merged

end Collection

end ApiAssembly.Document
