import ApiAssembly.Proofs.Document.Place

/-!
# Handling names

While schemas are being provided, everything that has happened to a document is
determined by the names that were handled and their order: the schemas on offer stand
behind those that the document defined, and the other names are missing.  A round of
provision handles the needed names, and the names that are needed afterwards are those
that the schemas of the round refer to.
-/

namespace ApiAssembly.Document

@[simp]
theorem extendSchemas_nil (document : Members) :
    extendSchemas [] document = openSchemas document := by
  apply Entries.update_eq_self
  intro value _
  cases value with
  | object components =>
      rw [extendComponents, Entries.update_eq_self]
      intro inner _
      cases inner <;> simp [appendMembers]
  | _ => rfl

/-- The schema that a document can take from a pool under a name. -/
def offered? (pool : String → Option Value) (document : Members) (name : String) :
    Option Value :=
  if hasPlace document then pool name else none

/-- The schemas on offer under some names, in the order of the names. -/
def offeredMembers (pool : String → Option Value) (document : Members)
    (names : List String) : Members :=
  names.filterMap fun name => (offered? pool document name).map fun schema => (name, schema)

/-- The references that the schema on offer under a name brings. -/
def newReferences (pool : String → Option Value) (document : Members) (name : String) :
    List String :=
  match offered? pool document name with
  | some schema => (Value.object [(name, schema)]).referenceNames
  | none => []

/-- What becomes of a document when some names are handled one after the other. -/
def afterHandling (pool : String → Option Value) (document : Members)
    (names : List String) : Resolution :=
  if names = [] then ⟨document, []⟩
  else ⟨extendSchemas (offeredMembers pool document names) document,
    names.filter fun name => (offered? pool document name).isNone⟩

/-- Whether a document neither defines a name nor has handled it. -/
def isUnsettled (document : Members) (handled : List String) (name : String) : Bool :=
  !defines document name && !handled.contains name

theorem isUnsettled_iff {document : Members} {handled : List String} {name : String} :
    isUnsettled document handled name = true ↔
      defines document name = false ∧ name ∉ handled := by
  simp [isUnsettled]

/-- The first occurrences of the unsettled names in a list. -/
def firstUnsettled (document : Members) (handled names : List String) : List String :=
  (names.filter (isUnsettled document handled)).eraseDups

theorem mem_firstUnsettled {document : Members} {handled names : List String}
    {name : String} :
    name ∈ firstUnsettled document handled names ↔
      name ∈ names ∧ defines document name = false ∧ name ∉ handled := by
  rw [firstUnsettled, List.mem_eraseDups, List.mem_filter, isUnsettled_iff]

theorem nodup_firstUnsettled (document : Members) (handled names : List String) :
    (firstUnsettled document handled names).Nodup :=
  nodup_eraseDups _

section Handling

variable (pool : String → Option Value) (document : Members)

@[simp]
theorem afterHandling_nil : afterHandling pool document [] = ⟨document, []⟩ := rfl

theorem missing_afterHandling (names : List String) :
    (afterHandling pool document names).missing =
      names.filter fun name => (offered? pool document name).isNone := by
  unfold afterHandling
  split
  · simp_all
  · rfl

theorem offeredMembers_append (front back : List String) :
    offeredMembers pool document (front ++ back) =
      offeredMembers pool document front ++ offeredMembers pool document back := by
  simp [offeredMembers]

theorem mem_keys_offeredMembers {name : String} {names : List String} :
    name ∈ Entries.keys (offeredMembers pool document names) ↔
      name ∈ names ∧ (offered? pool document name).isSome = true := by
  simp only [Entries.keys, offeredMembers, List.mem_map, List.mem_filterMap,
    Option.map_eq_some_iff]
  constructor
  · rintro ⟨_, ⟨name, member, schema, found, rfl⟩, rfl⟩
    exact ⟨member, by simp [found]⟩
  · rintro ⟨member, available⟩
    obtain ⟨schema, found⟩ := Option.isSome_iff_exists.mp available
    exact ⟨(name, schema), ⟨name, member, schema, found, rfl⟩, rfl⟩

theorem offeredMembers_of_not_hasPlace (closed : hasPlace document = false)
    (names : List String) : offeredMembers pool document names = [] := by
  simp [offeredMembers, offered?, closed]

theorem referenceNames_offeredMembers (names : List String) :
    (Value.object (offeredMembers pool document names)).referenceNames =
      names.flatMap (newReferences pool document) := by
  induction names with
  | nil => rfl
  | cons name names ih =>
      rw [show name :: names = [name] ++ names from rfl, offeredMembers_append,
        Value.referenceNames_object_append, ih, List.flatMap_append]
      congr 1
      cases found : offered? pool document name <;>
        simp [offeredMembers, newReferences, found]

/-- A document to which schemas have been added is open. -/
theorem openSchemas_extendSchemas (names : List String) :
    openSchemas (extendSchemas (offeredMembers pool document names) document) =
      extendSchemas (offeredMembers pool document names) document := by
  by_cases place : hasPlace document = true
  · obtain ⟨frame, schemas, opened⟩ := exists_frame_of_hasPlace place
    rw [extendSchemas_of_frame opened, frame.openSchemas_fill]
  · rw [offeredMembers_of_not_hasPlace pool document (by simpa using place)]
    simp

theorem openSchemas_afterHandling (names : List String) :
    openSchemas (afterHandling pool document names).document =
      extendSchemas (offeredMembers pool document names) document := by
  unfold afterHandling
  split
  · simp_all [offeredMembers]
  · exact openSchemas_extendSchemas pool document names

/-- What a document defines when schemas have been added to it. -/
theorem defines_extendSchemas (names : List String) (name : String) :
    defines (extendSchemas (offeredMembers pool document names) document) name =
      (defines document name ||
        names.contains name && (offered? pool document name).isSome) := by
  by_cases place : hasPlace document = true
  · obtain ⟨frame, schemas, opened⟩ := exists_frame_of_hasPlace place
    rw [extendSchemas_of_frame opened, ← defines_openSchemas document, opened,
      Bool.eq_iff_iff]
    simp only [SchemaFrame.defines_fill, Entries.contains_iff, Entries.keys_append,
      List.mem_append, Bool.or_eq_true, Bool.and_eq_true, List.contains_iff_mem]
    exact or_congr Iff.rfl (mem_keys_offeredMembers pool document)
  · rw [offeredMembers_of_not_hasPlace pool document (by simpa using place)]
    simp [offered?, place]

theorem defines_afterHandling (names : List String) (name : String) :
    defines (afterHandling pool document names).document name =
      (defines document name ||
        names.contains name && (offered? pool document name).isSome) := by
  rw [← defines_openSchemas, openSchemas_afterHandling, defines_extendSchemas]

/-- The references after some names have been handled: those of the schemas that were
added stand together among those of the document. -/
theorem exists_referenceNames_afterHandling :
    ∃ front back, (Value.object document).referenceNames = front ++ back ∧
      ∀ names, (Value.object (afterHandling pool document names).document).referenceNames =
        front ++ names.flatMap (newReferences pool document) ++ back := by
  by_cases place : hasPlace document = true
  · obtain ⟨frame, schemas, opened⟩ := exists_frame_of_hasPlace place
    obtain ⟨front, back, filled⟩ := frame.exists_referenceNames_fill
    refine ⟨front ++ (Value.object schemas).referenceNames, back, ?_, ?_⟩
    · rw [← referenceNames_openSchemas, opened, filled]
    · intro names
      rw [← referenceNames_openSchemas, openSchemas_afterHandling,
        extendSchemas_of_frame opened, filled, Value.referenceNames_object_append,
        referenceNames_offeredMembers]
      simp only [List.append_assoc]
  · refine ⟨(Value.object document).referenceNames, [], by simp, ?_⟩
    intro names
    have nothing : names.flatMap (newReferences pool document) = [] := by
      simp [newReferences, offered?, place]
    rw [← referenceNames_openSchemas, openSchemas_afterHandling,
      offeredMembers_of_not_hasPlace pool document (by simpa using place), nothing]
    simp

/-- Providing a name that is neither defined nor handled handles it. -/
theorem provide_afterHandling {names : List String} {name : String}
    (undefined : defines document name = false) (fresh : name ∉ names) :
    Resolution.provide pool (afterHandling pool document names) name =
      afterHandling pool document (names ++ [name]) := by
  have opened := openSchemas_afterHandling pool document names
  have missing := missing_afterHandling pool document names
  rw [Resolution.provide, opened, missing]
  conv => rhs; unfold afterHandling
  rw [if_neg (by simp), offeredMembers_append, List.filter_append]
  by_cases place : hasPlace document = true
  · obtain ⟨frame, schemas, framed⟩ := exists_frame_of_hasPlace place
    have offer : offered? pool document name = pool name := by simp [offered?, place]
    have absent : name ∉ Entries.keys (schemas ++ offeredMembers pool document names) := by
      rw [Entries.keys_append, List.mem_append, not_or]
      constructor
      · intro member
        rw [← Entries.contains_iff, ← frame.defines_fill, ← framed, defines_openSchemas,
          undefined] at member
        exact absurd member (by decide)
      · intro member
        exact fresh ((mem_keys_offeredMembers pool document).mp member).1
    rw [extendSchemas_of_frame framed, extendSchemas_of_frame framed, frame.schemas?_fill]
    cases found : pool name with
    | some schema =>
        have added : offeredMembers pool document [name] = [(name, schema)] := by
          simp [offeredMembers, offer, found]
        rw [added, ← List.append_assoc, ← Entries.put_of_not_mem absent]
        simp [offer, found]
    | none =>
        have nothing : offeredMembers pool document [name] = [] := by
          simp [offeredMembers, offer, found]
        rw [nothing]
        simp [offer, found]
  · have closed : hasPlace document = false := by simpa using place
    have noSchemas : schemas? (openSchemas document) = none := by
      simpa [hasPlace] using closed
    rw [offeredMembers_of_not_hasPlace pool document closed,
      offeredMembers_of_not_hasPlace pool document closed, List.append_nil,
      extendSchemas_nil, noSchemas]
    simp [offered?, closed]

/-- Providing names of which none is defined or handled handles them all. -/
theorem foldl_provide_afterHandling {names fresh : List String}
    (distinct : fresh.Nodup)
    (unsettled : ∀ name ∈ fresh, defines document name = false ∧ name ∉ names) :
    fresh.foldl (Resolution.provide pool) (afterHandling pool document names) =
      afterHandling pool document (names ++ fresh) := by
  induction fresh generalizing names with
  | nil => simp
  | cons name fresh ih =>
      rw [List.nodup_cons] at distinct
      have first := unsettled name (by simp)
      rw [List.foldl_cons, provide_afterHandling pool document first.1 first.2,
        ih distinct.2]
      · simp
      · intro other member
        have different : other ≠ name := fun same => distinct.1 (same ▸ member)
        have rest := unsettled other (by simp [member])
        exact ⟨rest.1, by simp [rest.2, different]⟩

/-- The needed names are the first occurrences of the unsettled references. -/
theorem needed_afterHandling (names : List String) :
    (afterHandling pool document names).needed =
      firstUnsettled document names
        (Value.object (afterHandling pool document names).document).referenceNames := by
  rw [Resolution.needed, Value.schemaReferences_eq_eraseDups, ← eraseDups_filter,
    firstUnsettled]
  congr 1
  apply List.filter_congr
  intro name _
  rw [defines_afterHandling, missing_afterHandling, isUnsettled]
  cases available : offered? pool document name <;> simp [available]

theorem mem_needed_afterHandling (names : List String) (name : String) :
    name ∈ (afterHandling pool document names).needed ↔
      name ∈ (Value.object (afterHandling pool document names).document).referenceNames ∧
        defines document name = false ∧ name ∉ names := by
  rw [needed_afterHandling, mem_firstUnsettled]

theorem nodup_needed_afterHandling (names : List String) :
    (afterHandling pool document names).needed.Nodup := by
  rw [needed_afterHandling]
  exact nodup_firstUnsettled _ _ _

/-- A round of provision handles the needed names. -/
theorem foldl_provide_needed (names : List String) :
    (afterHandling pool document names).needed.foldl (Resolution.provide pool)
        (afterHandling pool document names) =
      afterHandling pool document
        (names ++ (afterHandling pool document names).needed) := by
  apply foldl_provide_afterHandling
  · exact nodup_needed_afterHandling pool document names
  · intro name member
    exact ((mem_needed_afterHandling pool document _ _).mp member).2

/-- A round settles every reference that the document had before it. -/
theorem isUnsettled_after_round {names : List String} {name : String}
    (referred : name ∈
      (Value.object (afterHandling pool document names).document).referenceNames) :
    isUnsettled document (names ++ (afterHandling pool document names).needed) name =
      false := by
  rw [Bool.eq_false_iff, ne_eq, isUnsettled_iff, List.mem_append, not_or]
  rintro ⟨undefined, unhandled, unneeded⟩
  exact unneeded ((mem_needed_afterHandling pool document _ _).mpr
    ⟨referred, undefined, unhandled⟩)

/-- The names that are needed after a round are references of its schemas. -/
theorem needed_after_round (names : List String) :
    (afterHandling pool document
        (names ++ (afterHandling pool document names).needed)).needed =
      firstUnsettled document (names ++ (afterHandling pool document names).needed)
        ((afterHandling pool document names).needed.flatMap
          (newReferences pool document)) := by
  obtain ⟨front, back, -, references⟩ := exists_referenceNames_afterHandling pool document
  have settled : ∀ part : List String, (∀ name ∈ part, name ∈
      (Value.object (afterHandling pool document names).document).referenceNames) →
      part.filter (isUnsettled document
        (names ++ (afterHandling pool document names).needed)) = [] := by
    intro part included
    apply List.filter_eq_nil_iff.mpr
    intro name member
    simp [isUnsettled_after_round pool document (included name member)]
  rw [needed_afterHandling, references, List.flatMap_append, firstUnsettled, firstUnsettled]
  simp only [List.filter_append]
  rw [settled front, settled back, settled (names.flatMap (newReferences pool document))]
  · simp
  all_goals
    intro name member
    rw [references]
    simp [member]

end Handling

end ApiAssembly.Document
