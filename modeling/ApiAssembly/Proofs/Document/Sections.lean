import ApiAssembly.Proofs.Document.Handling
import ApiAssembly.Proofs.Value.Growth

/-!
# The sections of a document

A document is its seed followed by sections: members under the keys of the main sections,
with nothing foreign among the components.  Normalizing gives sections and leaves
sections as they are, merging sections gives sections, and so does providing schemas.
-/

namespace ApiAssembly.Document

/-- Members without foreign sections. -/
structure Sectioned (members : Members) : Prop where
  main : ∀ key ∈ Entries.keys members, key ∈ mainSections
  components : ∀ components, Entries.get? "components" members = some (.object components) →
    ∀ key ∈ Entries.keys components, key ∈ componentSections

/-- Components without foreign sections, if they are an object at all. -/
def SectionedComponents (value : Value) : Prop :=
  ∀ components, value = .object components →
    ∀ key ∈ Entries.keys components, key ∈ componentSections

theorem sectioned_iff {members : Members} : Sectioned members ↔
    (∀ key ∈ Entries.keys members, key ∈ mainSections) ∧
      ∀ value, Entries.get? "components" members = some value → SectionedComponents value := by
  constructor
  · rintro ⟨main, components⟩
    refine ⟨main, ?_⟩
    rintro value found inner rfl
    exact components inner found
  · rintro ⟨main, components⟩
    exact ⟨main, fun inner found => components _ found inner rfl⟩

theorem keys_keepSections (sections : List String) (members : Members) :
    Entries.keys (keepSections sections members) =
      (Entries.keys members).filter fun key => sections.contains key := by
  rw [keepSections, Entries.keys, Entries.keys, List.filter_map]
  rfl

theorem keepSections_eq_self {sections : List String} {members : Members}
    (known : ∀ key ∈ Entries.keys members, key ∈ sections) :
    keepSections sections members = members := by
  apply List.filter_eq_self.mpr
  intro member inside
  rw [List.contains_iff_mem]
  exact known member.1 (List.mem_map_of_mem inside)

theorem sectionedComponents_normalizeComponents (value : Value) :
    SectionedComponents (normalizeComponents value) := by
  intro components shape key member
  cases value with
  | object inner =>
      rw [normalizeComponents, Value.object.injEq] at shape
      rw [← shape, keys_keepSections, List.mem_filter] at member
      simpa using member.2
  | _ => simp [normalizeComponents] at shape

theorem SectionedComponents.normalizeComponents_eq {value : Value}
    (sectioned : SectionedComponents value) : normalizeComponents value = value := by
  cases value with
  | object components =>
      rw [normalizeComponents, keepSections_eq_self (sectioned components rfl)]
  | _ => rfl

theorem sectioned_normalize (fragment : Members) : Sectioned (normalize fragment) := by
  rw [sectioned_iff, normalize, Entries.keys_update, keys_keepSections]
  constructor
  · intro key member
    simpa using (List.mem_filter.mp member).2
  · intro value found
    rw [Entries.get?_update, if_pos rfl, Option.map_eq_some_iff] at found
    obtain ⟨old, -, rfl⟩ := found
    exact sectionedComponents_normalizeComponents old

theorem Sectioned.normalize_eq {members : Members} (sectioned : Sectioned members) :
    normalize members = members := by
  obtain ⟨main, components⟩ := sectioned_iff.mp sectioned
  rw [normalize, keepSections_eq_self main]
  apply Entries.update_eq_self
  intro value found
  exact (components value found).normalizeComponents_eq

/-- A seed does not survive normalization. -/
theorem normalize_seed_append (info : Info) (members : Members) :
    normalize (seed info ++ members) = normalize members := by
  have dropped : keepSections mainSections (seed info) = [] := by
    simp [keepSections, seed, mainSections]
  have split : keepSections mainSections (seed info ++ members) =
      keepSections mainSections (seed info) ++ keepSections mainSections members :=
    List.filter_append ..
  rw [normalize, split, dropped, List.nil_append, normalize]

section WellKeyed

theorem wellKeyed_keepSections {members : Members}
    (wellKeyed : (Value.object members).WellKeyed) (sections : List String) :
    (Value.object (keepSections sections members)).WellKeyed := by
  refine .object ?_ fun member inside => ?_
  · rw [keys_keepSections]
    exact wellKeyed.distinct.filter _
  · have inMembers := List.mem_of_mem_filter inside
    exact wellKeyed.member (Entries.get?_of_mem wellKeyed.distinct inMembers)

theorem wellKeyed_normalize {fragment : Members}
    (wellKeyed : (Value.object fragment).WellKeyed) :
    (Value.object (normalize fragment)).WellKeyed := by
  apply Value.wellKeyed_update (wellKeyed_keepSections wellKeyed mainSections)
  intro value valueKeyed
  cases value with
  | object components => exact wellKeyed_keepSections valueKeyed componentSections
  | _ => exact valueKeyed

theorem wellKeyed_seed (info : Info) : (Value.object (seed info)).WellKeyed := by
  refine .object (by simp [seed]) fun member inside => ?_
  simp only [seed, List.mem_cons, List.not_mem_nil, or_false] at inside
  rcases inside with rfl | rfl
  · exact .string _
  · refine .object (by simp) fun member inside => ?_
    simp only [List.mem_cons, List.not_mem_nil, or_false] at inside
    rcases inside with rfl | rfl <;> exact .string _

end WellKeyed

section Merging

theorem SectionedComponents.combine {present incoming : Value}
    (presentSectioned : SectionedComponents present)
    (incomingSectioned : SectionedComponents incoming) :
    SectionedComponents (Value.combine present incoming) := by
  intro components shape key member
  cases present with
  | array items => simp [Value.combine_array] at shape
  | object members =>
      cases isObject : incoming.object? with
      | none =>
          rw [Value.combine_object_of_object?_eq_none members isObject] at shape
          exact presentSectioned components shape key member
      | some source =>
          have source := Value.eq_object_of_object? isObject
          rw [source, Value.combine_object, Value.object.injEq] at shape
          rw [← shape, Value.mem_keys_mergeMembers] at member
          rcases member with old | new
          · exact presentSectioned members rfl key old
          · exact incomingSectioned _ source key new
  | _ =>
      rw [Value.combine_scalar (by simp) (by simp)] at shape
      cases shape

/-- Merging sections into sections gives sections. -/
theorem Sectioned.mergeMembers {target source : Members} (targetSectioned : Sectioned target)
    (sourceSectioned : Sectioned source) (distinct : (Entries.keys source).Nodup) :
    Sectioned (Value.mergeMembers target source) := by
  rw [sectioned_iff] at targetSectioned sourceSectioned ⊢
  constructor
  · intro key member
    rcases Value.mem_keys_mergeMembers.mp member with old | new
    · exact targetSectioned.1 key old
    · exact sourceSectioned.1 key new
  · intro value found
    cases brought : Entries.get? "components" source with
    | none =>
        rw [Value.get?_mergeMembers_of_not_mem (Entries.get?_eq_none_iff.mp brought)] at found
        exact targetSectioned.2 value found
    | some incoming =>
        have incomingSectioned := sourceSectioned.2 incoming brought
        rw [Value.get?_mergeMembers_of_get? distinct brought, Option.some.injEq] at found
        subst found
        cases old : Entries.get? "components" target with
        | none => exact incomingSectioned
        | some present => exact (targetSectioned.2 present old).combine incomingSectioned

theorem sectioned_mergeAll {target : Members} (sectioned : Sectioned target)
    {fragments : List Members}
    (each : ∀ fragment ∈ fragments, Sectioned fragment ∧ (Entries.keys fragment).Nodup) :
    Sectioned (Value.mergeAll target fragments) := by
  induction fragments generalizing target with
  | nil => exact sectioned
  | cons fragment fragments ih =>
      obtain ⟨fragmentSectioned, distinct⟩ := each fragment (by simp)
      exact ih (sectioned.mergeMembers fragmentSectioned distinct)
        fun other member => each other (by simp [member])

theorem not_mem_keys_seed {key : String} (main : key ∈ mainSections) (info : Info) :
    key ∉ Entries.keys (seed info) := by
  intro member
  revert main
  simp only [seed, Entries.keys_cons, Entries.keys_nil, List.mem_cons, List.not_mem_nil,
    or_false] at member
  rcases member with rfl | rfl <;> decide

/-- The merged document is the seed in front of the merged sections. -/
theorem mergeAll_seed_append (info : Info) (members : Members) {fragments : List Members}
    (sectioned : ∀ fragment ∈ fragments, Sectioned fragment) :
    Value.mergeAll (seed info ++ members) fragments =
      seed info ++ Value.mergeAll members fragments := by
  induction fragments generalizing members with
  | nil => rfl
  | cons fragment fragments ih =>
      have main := (sectioned fragment (by simp)).main
      rw [Value.mergeAll, List.foldl_cons, Value.mergeMembers_append_of_disjoint
        fun key member => not_mem_keys_seed (main key member) info]
      exact ih _ fun other member => sectioned other (by simp [member])

end Merging

end ApiAssembly.Document
