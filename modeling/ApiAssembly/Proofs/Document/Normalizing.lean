import ApiAssembly.Proofs.Document.Sections

/-!
# Normalizing before and after merging

Merging treats each key for itself, so it does not matter whether members of foreign keys
are dropped from the fragments or from what comes of them.  The same is true of the foreign
sections of the components as long as these are mappings: a sequence would take up the
components of a later fragment as an item, and with them their foreign sections.
-/

namespace ApiAssembly

open Value (combine mergeAll mergeMembers)

/-- A change of what stands under a key can be made before merging, if it respects how an
incoming value is combined with the present one. -/
theorem Value.update_mergeMembers {key : String} {change : Value → Value}
    {target source : Members} (targetDistinct : (Entries.keys target).Nodup)
    (sourceDistinct : (Entries.keys source).Nodup)
    (respects : ∀ present ∈ Entries.get? key target, ∀ incoming ∈ Entries.get? key source,
      change (combine present incoming) = combine (change present) (change incoming)) :
    Entries.update key change (mergeMembers target source) =
      mergeMembers (Entries.update key change target) (Entries.update key change source) := by
  have changedDistinct : (Entries.keys (Entries.update key change source)).Nodup := by
    rwa [Entries.keys_update]
  apply Entries.ext_of_nodup
  · rw [Entries.keys_update, keys_mergeMembers, keys_mergeMembers, Entries.keys_update,
      Entries.keys_update]
  · rw [Entries.keys_update]
    exact nodup_keys_mergeMembers targetDistinct source
  · intro name _
    rw [Entries.get?_update, get?_mergeMembers sourceDistinct, get?_mergeMembers changedDistinct,
      Entries.get?_update, Entries.get?_update]
    by_cases here : key = name
    · subst here
      rw [if_pos rfl, if_pos rfl, if_pos rfl]
      cases brought : Entries.get? key source with
      | none => rfl
      | some incoming =>
          cases old : Entries.get? key target with
          | none => rfl
          | some present => exact congrArg some (respects present old incoming brought)
    · rw [if_neg here, if_neg here, if_neg here]

namespace Document

theorem keepSections_cons (sections : List String) (key : String) (value : Value)
    (members : Members) : keepSections sections ((key, value) :: members) =
      if sections.contains key then (key, value) :: keepSections sections members
      else keepSections sections members :=
  List.filter_cons

theorem keepSections_put (sections : List String) (key : String) (value : Value)
    (members : Members) : keepSections sections (Entries.put key value members) =
      if sections.contains key then Entries.put key value (keepSections sections members)
      else keepSections sections members := by
  induction members with
  | nil => rw [Entries.put, keepSections_cons]; rfl
  | cons member members ih =>
      obtain ⟨name, old⟩ := member
      by_cases here : name = key
      · subst here
        rw [Entries.put, if_pos rfl, keepSections_cons, keepSections_cons]
        split
        · rw [Entries.put, if_pos rfl]
        · rfl
      · rw [Entries.put, if_neg here, keepSections_cons, keepSections_cons, ih]
        split
        · split
          · rw [Entries.put, if_neg here]
          · rfl
        · rfl

/-- Sections can be selected before merging. -/
theorem keepSections_mergeMembers (sections : List String) (target source : Members) :
    keepSections sections (mergeMembers target source) =
      mergeMembers (keepSections sections target) (keepSections sections source) := by
  induction source generalizing target with
  | nil => rw [Value.mergeMembers_nil, keepSections, keepSections, List.filter_nil,
      Value.mergeMembers_nil]
  | cons member source ih =>
      obtain ⟨key, value⟩ := member
      rw [Value.mergeMembers_cons, ih, keepSections_put, keepSections_cons]
      split
      next kept =>
        have present : Entries.get? key (keepSections sections target) =
            Entries.get? key target := by
          rw [keepSections, Entries.get?_filter sections.contains, if_pos kept]
        rw [Value.mergeMembers_cons, present]
      next => rfl

theorem get?_components_keepSections (members : Members) :
    Entries.get? "components" (keepSections mainSections members) =
      Entries.get? "components" members :=
  Entries.get?_filter mainSections.contains members "components"

theorem normalizeComponents_combine {present : Value} (mapping : present.kind = .mapping)
    (incoming : Value) : normalizeComponents (combine present incoming) =
      combine (normalizeComponents present) (normalizeComponents incoming) := by
  cases present with
  | object components =>
      cases incoming with
      | object more =>
          rw [Value.combine_object, normalizeComponents, normalizeComponents, normalizeComponents,
            Value.combine_object, keepSections_mergeMembers]
      | _ => simp only [normalizeComponents, combine]
  | _ => cases mapping

/-- The components of the members are a mapping, if there are any. -/
def MappedComponents (members : Members) : Prop :=
  ∀ components ∈ Entries.get? "components" members, components.kind = .mapping

instance : DecidablePred MappedComponents :=
  fun members => Option.decidableForallMem (Entries.get? "components" members)

theorem MappedComponents.mergeMembers {target source : Members}
    (targetMapped : MappedComponents target) (sourceMapped : MappedComponents source)
    (distinct : (Entries.keys source).Nodup) :
    MappedComponents (mergeMembers target source) := by
  intro components found
  rw [Option.mem_def, Value.get?_mergeMembers distinct] at found
  cases brought : Entries.get? "components" source with
  | none =>
      rw [brought] at found
      exact targetMapped components found
  | some incoming =>
      rw [brought] at found
      cases old : Entries.get? "components" target with
      | none =>
          rw [old] at found
          cases found
          exact sourceMapped incoming brought
      | some present =>
          rw [old] at found
          cases found
          have mapping := targetMapped present old
          cases present with
          | object members => cases incoming <;> simp [Value.received, combine, Value.kind]
          | _ => cases mapping

theorem normalize_mergeMembers {target source : Members} (mapped : MappedComponents target)
    (targetDistinct : (Entries.keys target).Nodup)
    (sourceDistinct : (Entries.keys source).Nodup) :
    normalize (mergeMembers target source) =
      mergeMembers (normalize target) (normalize source) := by
  have distinct {members : Members} (whole : (Entries.keys members).Nodup) :
      (Entries.keys (keepSections mainSections members)).Nodup := by
    rw [keys_keepSections]
    exact whole.filter _
  rw [normalize, keepSections_mergeMembers,
    Value.update_mergeMembers (distinct targetDistinct) (distinct sourceDistinct)]
  · rfl
  · intro present old incoming _
    rw [get?_components_keepSections] at old
    exact normalizeComponents_combine (mapped present old) incoming

theorem normalize_mergeAll {target : Members} (mapped : MappedComponents target)
    (distinct : (Entries.keys target).Nodup) {fragments : List Members}
    (each : ∀ fragment ∈ fragments, MappedComponents fragment ∧ (Entries.keys fragment).Nodup) :
    normalize (mergeAll target fragments) =
      mergeAll (normalize target) (fragments.map normalize) := by
  induction fragments generalizing target with
  | nil => rfl
  | cons fragment fragments ih =>
      obtain ⟨⟨fragmentMapped, fragmentDistinct⟩, others⟩ := List.forall_mem_cons.mp each
      have merged := ih (mapped.mergeMembers fragmentMapped fragmentDistinct)
        (Value.nodup_keys_mergeMembers distinct fragment) others
      rw [normalize_mergeMembers mapped distinct fragmentDistinct] at merged
      exact merged

/-- Fragments whose components are mappings can be merged with or without what is foreign in
them: after normalizing, the result is the same. -/
theorem mergeAll_map_normalize {fragments : List Members}
    (distinct : ∀ fragment ∈ fragments, (Entries.keys fragment).Nodup)
    (mapped : ∀ fragment ∈ fragments, MappedComponents fragment) :
    mergeAll [] (fragments.map normalize) = normalize (mergeAll [] fragments) := by
  have start : MappedComponents [] := by
    intro components found
    cases found
  have each : ∀ fragment ∈ fragments, MappedComponents fragment ∧
      (Entries.keys fragment).Nodup :=
    fun fragment member => ⟨mapped fragment member, distinct fragment member⟩
  rw [normalize_mergeAll start List.nodup_nil each]
  rfl

/-- Foreign keys that come first, whose values differ in kind, and that stand among the
components. -/
theorem mergeAll_map_normalize_foreign :
    let fragments : List Members :=
      [[("x-first", .array []), ("components", .object [("x-own", .null), ("schemas", .null)])],
        [("paths", .object [("/a", .null)]), ("x-first", .object [("tags", .null)]),
          ("components", .object [("links", .object []), ("x-own", .object [])])],
        [("tags", .array [.whole 1]), ("paths", .array [.null]), ("x-first", .whole 2),
          ("components", .object [("x-late", .null), ("links", .object [("x-kept", .null)])])]]
    let result : Members :=
      [("components", .object [("schemas", .null), ("links", .object [("x-kept", .null)])]),
        ("paths", .object [("/a", .null)]), ("tags", .array [.whole 1])]
    ((∀ fragment ∈ fragments, (Entries.keys fragment).Nodup) ∧
        ∀ fragment ∈ fragments, MappedComponents fragment) ∧
      mergeAll [] (fragments.map normalize) = result ∧
      normalize (mergeAll [] fragments) = result := by
  intro fragments result
  have distinct : ∀ fragment ∈ fragments, (Entries.keys fragment).Nodup := by decide
  have mapped : ∀ fragment ∈ fragments, MappedComponents fragment := by decide
  have merged : normalize (mergeAll [] fragments) = result := by cbv
  have same := mergeAll_map_normalize distinct mapped
  exact ⟨⟨distinct, mapped⟩, same.trans merged, merged⟩

end Document

end ApiAssembly
