import ApiAssembly.Proofs.Value.Merging

/-!
# Growth under merging

Merging only lets a value grow: a scalar stays, a sequence gets new elements behind its
own, and an object gets new keys behind its own while its values grow.  A value that has
grown out of another one absorbs it, and it absorbs whatever was merged on the way.
-/

namespace ApiAssembly.Value

/-- The second value is one that merging can make of the first.  New members may hold
anything. -/
inductive Grows : Value → Value → Prop
  | scalar {value : Value} (noArray : ∀ items, value ≠ .array items)
      (noObject : ∀ members, value ≠ .object members) : Grows value value
  | array {items added : List Value} (reflexive : ∀ item ∈ items, item.same item = true)
      (new : newElements items added = added) :
      Grows (.array items) (.array (items ++ added))
  | object {members grown : Members} (distinct : (Entries.keys grown).Nodup)
      (ordered : Entries.keys members <+: Entries.keys grown)
      (each : ∀ key before after, Entries.get? key members = some before →
        Entries.get? key grown = some after → Grows before after) :
      Grows (.object members) (.object grown)

section NewElements

theorem newElements_append (items front back : List Value) :
    newElements items (front ++ back) =
      newElements items front ++ newElements (items ++ newElements items front) back := by
  induction front generalizing items with
  | nil => simp [newElements]
  | cons element front ih =>
      rw [List.cons_append, newElements, newElements]
      split
      · exact ih items
      · rw [ih, List.cons_append, List.append_assoc]
        rfl

/-- Elements that equal present ones are not new. -/
theorem newElements_eq_nil {items incoming : List Value}
    (known : ∀ element ∈ incoming, ∃ present ∈ items, present.same element = true) :
    newElements items incoming = [] := by
  induction incoming with
  | nil => rfl
  | cons element rest ih =>
      have present := List.any_eq_true.mpr (known element (by simp))
      rw [newElements, if_pos present]
      exact ih fun other member => known other (by simp [member])

/-- New elements are new to the sequence that they are put behind. -/
theorem newElements_newElements (items incoming : List Value) :
    newElements items (newElements items incoming) = newElements items incoming := by
  induction incoming generalizing items with
  | nil => rfl
  | cons element rest ih =>
      by_cases present : (items.any fun present => present.same element) = true
      · rw [newElements, if_pos present]
        exact ih items
      · rw [newElements, if_neg present, newElements, if_neg present, ih]

/-- What has come for a sequence equals an element of the longer sequence. -/
theorem exists_same_of_mem {items incoming : List Value} {element : Value}
    (reflexive : element.same element = true) (member : element ∈ incoming) :
    ∃ present ∈ items ++ newElements items incoming, present.same element = true := by
  induction incoming generalizing items with
  | nil => simp at member
  | cons first rest ih =>
      rw [newElements]
      split
      · rename_i known
        rcases List.mem_cons.mp member with rfl | later
        · obtain ⟨present, inside, same⟩ := List.any_eq_true.mp known
          exact ⟨present, List.mem_append_left _ inside, same⟩
        · exact ih later
      · rcases List.mem_cons.mp member with rfl | later
        · exact ⟨element, by simp, reflexive⟩
        · simpa using @ih (items ++ [first]) later

/-- What has come for a sequence is not new to it later on. -/
theorem newElements_of_grown (items : List Value) {incoming : List Value}
    (reflexive : ∀ element ∈ incoming, element.same element = true) (added : List Value) :
    newElements (items ++ newElements items incoming ++ added) incoming = [] := by
  apply newElements_eq_nil
  intro element member
  obtain ⟨present, inside, same⟩ := exists_same_of_mem (reflexive element member) member
  exact ⟨present, List.mem_append_left added inside, same⟩

end NewElements

theorem Grows.refl {value : Value} (wellKeyed : value.WellKeyed) : Grows value value := by
  induction wellKeyed with
  | null | bool | number | string => exact .scalar (by simp) (by simp)
  | @array items each _ =>
      have whole : Grows (.array items) (.array (items ++ [])) :=
        .array (fun item member => (each item member).same_self) rfl
      rwa [List.append_nil] at whole
  | object distinct _ ih =>
      refine .object distinct List.prefix_rfl fun key before after first second => ?_
      obtain rfl : before = after := Option.some.inj (first.symm.trans second)
      exact ih (key, before) (Entries.mem_of_get? first)

theorem Grows.trans {first second third : Value} (early : Grows first second)
    (late : Grows second third) : Grows first third := by
  induction early generalizing third with
  | scalar => exact late
  | @array items added reflexive new =>
      cases late with
      | scalar noArray => exact absurd rfl (noArray _)
      | @array _ more _ moreNew =>
          rw [List.append_assoc]
          refine .array reflexive ?_
          rw [newElements_append, new, moreNew]
  | @object members grown _ ordered _ ih =>
      cases late with
      | scalar _ noObject => exact absurd rfl (noObject _)
      | @object _ final distinct orderedLate lateEach =>
          refine .object distinct (ordered.trans orderedLate) ?_
          intro key before after found foundLate
          have inGrown := ordered.subset (Entries.mem_keys_of_get? found)
          obtain ⟨between, foundBetween⟩ := Entries.exists_get?_of_mem_keys inGrown
          exact ih key before between found foundBetween
            (lateEach key between after foundBetween foundLate)

theorem keys_prefix_mergeMembers (target source : Members) :
    Entries.keys target <+: Entries.keys (mergeMembers target source) := by
  rw [keys_mergeMembers_eq_append]
  exact List.prefix_append _ _

/-- Keys that stand in front are followed by the others. -/
theorem keys_mergeMembers_of_prefix {target source : Members}
    (distinct : (Entries.keys source).Nodup)
    (ordered : Entries.keys target <+: Entries.keys source) :
    Entries.keys (mergeMembers target source) = Entries.keys source := by
  obtain ⟨added, sameKeys⟩ := ordered
  rw [← sameKeys] at distinct ⊢
  obtain ⟨_, addedDistinct, apart⟩ := List.nodup_append.mp distinct
  have old : ((Entries.keys target).filter fun key =>
      !(Entries.keys target).contains key) = [] := by
    simp
  have new : (added.filter fun key => !(Entries.keys target).contains key) = added := by
    apply List.filter_eq_self.mpr
    intro key member
    simpa using fun present => apart key present key member rfl
  rw [keys_mergeMembers_eq_append, ← sameKeys, List.filter_append, old, new, List.nil_append,
    eraseDups_of_nodup addedDistinct]

theorem keys_mergeMembers_of_subset {target source : Members}
    (known : ∀ key ∈ Entries.keys source, key ∈ Entries.keys target) :
    Entries.keys (mergeMembers target source) = Entries.keys target := by
  have nothing : ((Entries.keys source).filter fun key =>
      !(Entries.keys target).contains key) = [] := by
    apply List.filter_eq_nil_iff.mpr
    intro key member
    simp [known key member]
  rw [keys_mergeMembers_eq_append, nothing, List.eraseDups_nil, List.append_nil]

/-- Merging lets a value grow. -/
theorem grows_combine {present incoming : Value} (presentKeyed : present.WellKeyed)
    (incomingKeyed : incoming.WellKeyed) : Grows present (combine present incoming) := by
  cases present with
  | array items =>
      rw [combine_array, collect_eq]
      exact .array (fun item member => (presentKeyed.item member).same_self)
        (newElements_newElements items incoming.elements)
  | object members =>
      cases isObject : incoming.object? with
      | none =>
          rw [combine_object_of_object?_eq_none members isObject]
          exact .refl presentKeyed
      | some source =>
          have shape := eq_object_of_object? isObject
          rw [shape] at incomingKeyed
          rw [shape, combine_object]
          refine .object (nodup_keys_mergeMembers presentKeyed.distinct source)
            (keys_prefix_mergeMembers members source) ?_
          intro key before after found foundAfter
          cases brought : Entries.get? key source with
          | none =>
              rw [get?_mergeMembers_of_not_mem (Entries.get?_eq_none_iff.mp brought), found,
                Option.some.injEq] at foundAfter
              exact foundAfter ▸ .refl (presentKeyed.member found)
          | some value =>
              have smaller := sizeOf_lt_of_get? brought
              rw [get?_mergeMembers_of_get? incomingKeyed.distinct brought, found,
                Option.some.injEq] at foundAfter
              exact foundAfter ▸ grows_combine (presentKeyed.member found)
                (incomingKeyed.member brought)
  | _ =>
      rw [combine_scalar (by simp) (by simp)]
      exact .scalar (by simp) (by simp)
termination_by sizeOf incoming
decreasing_by
  rw [shape, object.sizeOf_spec]
  omega

/-- A value that has grown out of another one absorbs it. -/
theorem Grows.absorbs_origin {before after : Value} (growth : Grows before after) :
    combine before after = after := by
  induction growth with
  | scalar noArray noObject => exact combine_scalar noArray noObject _
  | @array items added reflexive new =>
      have known : newElements items items = [] :=
        newElements_eq_nil fun item member => ⟨item, member, reflexive item member⟩
      rw [combine_array, Value.elements, collect_append, collect_eq items items, known,
        List.append_nil, collect_eq, new]
  | @object members grown distinct ordered _ ih =>
      have keys := keys_mergeMembers_of_prefix distinct ordered
      rw [combine_object]
      congr 1
      refine Entries.ext_of_nodup keys (keys ▸ distinct) fun key member => ?_
      rw [keys] at member
      obtain ⟨after, found⟩ := Entries.exists_get?_of_mem_keys member
      rw [get?_mergeMembers_of_get? distinct found, found]
      cases old : Entries.get? key members with
      | none => rfl
      | some before => exact congrArg some (ih key before after old found)

/-- A value that comes for a new key is as it would be merged with itself. -/
theorem exists_received_eq_combine {incoming : Value} (wellKeyed : incoming.WellKeyed)
    (present : Option Value) : ∃ before, received present incoming = combine before incoming := by
  cases present with
  | none => exact ⟨incoming, (Grows.refl wellKeyed).absorbs_origin.symm⟩
  | some before => exact ⟨before, rfl⟩

/-- What has grown since a value was merged absorbs the value. -/
theorem Grows.absorbs_incoming {present incoming after : Value}
    (incomingKeyed : incoming.WellKeyed) (growth : Grows (combine present incoming) after) :
    combine after incoming = after := by
  cases present with
  | array items =>
      rw [combine_array, collect_eq] at growth
      cases growth with
      | scalar noArray => exact absurd rfl (noArray _)
      | @array _ added _ _ =>
          have known := newElements_of_grown items
            (fun element member => (incomingKeyed.elements member).same_self) added
          rw [combine_array, collect_eq, known, List.append_nil]
  | object members =>
      cases isObject : incoming.object? with
      | none =>
          rw [combine_object_of_object?_eq_none members isObject] at growth
          cases growth with
          | scalar _ noObject => exact absurd rfl (noObject _)
          | object => exact combine_object_of_object?_eq_none _ isObject
      | some source =>
          have shape := eq_object_of_object? isObject
          rw [shape] at incomingKeyed growth
          rw [combine_object] at growth
          cases growth with
          | scalar _ noObject => exact absurd rfl (noObject _)
          | @object _ grown distinct ordered each =>
              have keys : Entries.keys (mergeMembers grown source) = Entries.keys grown := by
                apply keys_mergeMembers_of_subset
                intro key member
                exact ordered.subset (mem_keys_mergeMembers.mpr (.inr member))
              rw [shape, combine_object]
              congr 1
              refine Entries.ext_of_nodup keys (keys ▸ distinct) fun key member => ?_
              rw [keys] at member
              obtain ⟨later, found⟩ := Entries.exists_get?_of_mem_keys member
              cases brought : Entries.get? key source with
              | none =>
                  rw [get?_mergeMembers_of_not_mem (Entries.get?_eq_none_iff.mp brought)]
              | some value =>
                  have smaller := sizeOf_lt_of_get? brought
                  have merged := get?_mergeMembers_of_get? incomingKeyed.distinct brought members
                  have valueGrowth := each key _ later merged found
                  rw [get?_mergeMembers_of_get? incomingKeyed.distinct brought, found]
                  apply congrArg some
                  have valueKeyed := incomingKeyed.member brought
                  obtain ⟨before, same⟩ :=
                    exists_received_eq_combine valueKeyed (Entries.get? key members)
                  rw [same] at valueGrowth
                  exact valueGrowth.absorbs_incoming valueKeyed
  | _ =>
      rw [combine_scalar (by simp) (by simp)] at growth
      cases growth
      exact combine_scalar (by simp) (by simp) _
termination_by sizeOf incoming
decreasing_by
  all_goals
    rw [shape, object.sizeOf_spec]
    omega

/-- What was there in the beginning can be merged again. -/
theorem Grows.absorbs_start {before after : Value} (wellKeyed : before.WellKeyed)
    (growth : Grows before after) : combine after before = after := by
  have same := (Grows.refl wellKeyed).absorbs_origin
  rw [← same] at growth
  exact growth.absorbs_incoming wellKeyed

section Members

/-- New members let an object grow. -/
theorem grows_append {members : Members} (wellKeyed : (object members).WellKeyed)
    {added : Members} (distinct : (Entries.keys (members ++ added)).Nodup) :
    Grows (.object members) (.object (members ++ added)) := by
  have ordered : Entries.keys members <+: Entries.keys (members ++ added) := by
    rw [Entries.keys_append]
    exact List.prefix_append _ _
  refine .object distinct ordered fun key before after found foundAfter => ?_
  have inside := List.mem_append_left added (Entries.mem_of_get? found)
  obtain rfl := Option.some.inj ((Entries.get?_of_mem distinct inside).symm.trans foundAfter)
  exact .refl (wellKeyed.member found)

/-- A member that grows lets its object grow. -/
theorem grows_update {members : Members} (wellKeyed : (object members).WellKeyed)
    {key : String} {change : Value → Value}
    (growth : ∀ value, Entries.get? key members = some value →
      Grows value (change value)) :
    Grows (.object members) (.object (Entries.update key change members)) := by
  have keys := Entries.keys_update key change members
  refine .object (keys ▸ wellKeyed.distinct) (keys ▸ List.prefix_rfl) ?_
  intro other before after found foundAfter
  rw [Entries.get?_update] at foundAfter
  split at foundAfter
  · rename_i same
    subst same
    rw [found, Option.map_some, Option.some.injEq] at foundAfter
    exact foundAfter ▸ growth before found
  · obtain rfl := Option.some.inj (found.symm.trans foundAfter)
    exact .refl (wellKeyed.member found)

theorem wellKeyed_mergeAll {target : Members} (wellKeyed : (object target).WellKeyed)
    {sources : List Members} (each : ∀ source ∈ sources, (object source).WellKeyed) :
    (object (mergeAll target sources)).WellKeyed := by
  induction sources generalizing target with
  | nil => exact wellKeyed
  | cons source sources ih =>
      have first := wellKeyed_combine wellKeyed (each source (by simp))
      rw [combine_object] at first
      exact ih first fun other member => each other (by simp [member])

/-- Merging sources one after the other lets the target grow. -/
theorem grows_mergeAll {target : Members} (wellKeyed : (object target).WellKeyed)
    {sources : List Members} (each : ∀ source ∈ sources, (object source).WellKeyed) :
    Grows (object target) (object (mergeAll target sources)) := by
  induction sources generalizing target with
  | nil => exact .refl wellKeyed
  | cons source sources ih =>
      have sourceKeyed := each source (by simp)
      have first := grows_combine wellKeyed sourceKeyed
      have firstKeyed := wellKeyed_combine wellKeyed sourceKeyed
      rw [combine_object] at first firstKeyed
      exact first.trans (ih firstKeyed fun other member => each other (by simp [member]))

/-- What has grown since some sources were merged absorbs all of them. -/
theorem mergeAll_eq_of_grows {target after : Members} (wellKeyed : (object target).WellKeyed)
    {sources : List Members} (each : ∀ source ∈ sources, (object source).WellKeyed)
    (growth : Grows (object (mergeAll target sources)) (object after)) :
    mergeAll after sources = after := by
  induction sources generalizing target with
  | nil => rfl
  | cons source sources ih =>
      have sourceKeyed := each source (by simp)
      have othersKeyed : ∀ other ∈ sources, (object other).WellKeyed :=
        fun other member => each other (by simp [member])
      have firstKeyed := wellKeyed_combine wellKeyed sourceKeyed
      have later : Grows (combine (object target) (object source)) (object after) := by
        rw [combine_object] at firstKeyed ⊢
        exact (grows_mergeAll firstKeyed othersKeyed).trans growth
      have absorbed := later.absorbs_incoming sourceKeyed
      rw [combine_object] at absorbed firstKeyed
      rw [object.injEq] at absorbed
      rw [mergeAll, List.foldl_cons, absorbed]
      exact ih firstKeyed othersKeyed growth

/-- The result of merging absorbs itself. -/
theorem mergeMembers_self {members : Members} (wellKeyed : (object members).WellKeyed) :
    mergeMembers members members = members := by
  have same := (Grows.refl wellKeyed).absorbs_origin
  rwa [combine_object, object.injEq] at same

/-- Once sources have been merged in order, merging one of them again changes nothing, and
neither does merging the target that was there before or the result itself. -/
theorem mergeAll_absorbs {target : Members} (wellKeyed : (object target).WellKeyed)
    {sources : List Members} (each : ∀ source ∈ sources, (object source).WellKeyed) :
    (∀ source ∈ sources,
        mergeMembers (mergeAll target sources) source = mergeAll target sources) ∧
      mergeMembers (mergeAll target sources) target = mergeAll target sources ∧
      mergeMembers (mergeAll target sources) (mergeAll target sources) =
        mergeAll target sources := by
  refine ⟨?_, ?_, mergeMembers_self (wellKeyed_mergeAll wellKeyed each)⟩
  · intro source member
    have sourceKeyed := each source member
    obtain ⟨early, late, rfl⟩ := List.append_of_mem member
    rw [List.forall_mem_append, List.forall_mem_cons] at each
    -- The source is absorbed by what came out of merging it, and the late sources only add to that.
    have earlyKeyed := wellKeyed_mergeAll wellKeyed each.1
    have merged := wellKeyed_combine earlyKeyed sourceKeyed
    rw [combine_object] at merged
    have growth := grows_mergeAll merged each.2.2
    rw [← combine_object] at growth
    have absorbed := growth.absorbs_incoming sourceKeyed
    rw [combine_object, object.injEq] at absorbed
    have whole : mergeAll target (early ++ source :: late) =
        mergeAll (mergeMembers (mergeAll target early) source) late := List.foldl_append
    rwa [whole]
  · have absorbed := (grows_mergeAll wellKeyed each).absorbs_start wellKeyed
    rwa [combine_object, object.injEq] at absorbed

/-- Sources that come in each other's way: other kinds under a key, a mapping for a sequence,
repeated items, and an object that differs from a present one in the order of its keys. -/
theorem mergeAll_absorbs_rivals :
    let target : Members := [("a", .array [.whole 1, .whole 1]), ("b", .null)]
    let sources : List Members :=
      [[("a", .object [("x", .null), ("y", .null)]), ("b", .object [("z", .whole 2)])],
        [("c", .object [("d", .array [])]), ("a", .array [.object [("y", .null), ("x", .null)]])],
        [("c", .object [("d", .whole 3), ("b", .null)]), ("b", .array [.null])]]
    let result : Members :=
      [("a", .array [.whole 1, .whole 1, .object [("x", .null), ("y", .null)]]), ("b", .null),
        ("c", .object [("d", .array [.whole 3]), ("b", .null)])]
    (object target).WellKeyed ∧ (∀ source ∈ sources, (object source).WellKeyed) ∧
      mergeAll target sources = result ∧
      (∀ source ∈ sources, mergeMembers result source = result) ∧
      mergeMembers result target = result ∧ mergeMembers result result = result := by
  intro target sources result
  have wellKeyed : (object target).WellKeyed := by decide
  have each : ∀ source ∈ sources, (object source).WellKeyed := by decide
  have merged : mergeAll target sources = result := by cbv
  have absorbs := mergeAll_absorbs wellKeyed each
  rw [merged] at absorbs
  exact ⟨wellKeyed, each, merged, absorbs⟩

end Members

end ApiAssembly.Value
