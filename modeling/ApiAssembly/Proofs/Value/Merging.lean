import ApiAssembly.Proofs.Value.Reference
import ApiAssembly.Proofs.Value.WellKeyed
import ApiAssembly.Value.Merge

/-!
# What merging does to a value

What comes for a sequence is taken element by element, what comes for an object is taken
if it is an object, and nothing else changes.  Merged members have the keys of both
sides in the order of their first occurrence, and under each key the value that was
there with the incoming one combined into it.
-/

namespace ApiAssembly.Value

/-- What a value adds to a sequence: its items if it is one, and itself otherwise. -/
def elements : Value → List Value
  | .array items => items
  | other => [other]

/-- The elements that equal no element before them, be it one of the items or one that
was kept. -/
def newElements (items : List Value) : List Value → List Value
  | [] => []
  | element :: rest =>
    if items.any fun present => present.same element then newElements items rest
    else element :: newElements (items ++ [element]) rest

/-- The value under a key when another value has come for the key. -/
def received (present : Option Value) (incoming : Value) : Value :=
  match present with
  | none => incoming
  | some value => combine value incoming

theorem collect_cons (items rest : List Value) (element : Value) :
    collect items (element :: rest) =
      collect (if items.any fun present => present.same element then items
        else items ++ [element]) rest := rfl

theorem collect_eq (items incoming : List Value) :
    collect items incoming = items ++ newElements items incoming := by
  induction incoming generalizing items with
  | nil => simp [newElements]
  | cons element rest ih =>
      rw [collect_cons, newElements]
      split
      · exact ih items
      · rw [ih, List.append_assoc]
        rfl

theorem mem_of_mem_newElements {items incoming : List Value} {element : Value}
    (member : element ∈ newElements items incoming) : element ∈ incoming := by
  induction incoming generalizing items with
  | nil => exact member
  | cons first rest ih =>
      rw [newElements] at member
      split at member
      · exact List.mem_cons_of_mem first (ih member)
      · rcases List.mem_cons.mp member with rfl | later
        · exact List.mem_cons_self
        · exact List.mem_cons_of_mem first (ih later)

theorem WellKeyed.elements {value : Value} (wellKeyed : value.WellKeyed) {element : Value}
    (member : element ∈ value.elements) : element.WellKeyed := by
  cases value with
  | array items => exact wellKeyed.item member
  | _ => exact List.mem_singleton.mp member ▸ wellKeyed

theorem sizeOf_lt_of_get? {key : String} {members : Members} {value : Value}
    (found : Entries.get? key members = some value) : sizeOf value < sizeOf members := by
  have bound := List.sizeOf_lt_of_mem (Entries.mem_of_get? found)
  rw [Prod.mk.sizeOf_spec] at bound
  omega

theorem collect_append (items front back : List Value) :
    collect items (front ++ back) = collect (collect items front) back :=
  List.foldl_append

/-- A scalar stays whatever comes. -/
theorem combine_scalar {scalar : Value} (noArray : ∀ items, scalar ≠ .array items)
    (noObject : ∀ members, scalar ≠ .object members) (value : Value) :
    combine scalar value = scalar := by
  cases scalar with
  | array items => exact absurd rfl (noArray items)
  | object members => exact absurd rfl (noObject members)
  | _ => cases value <;> simp [combine]

theorem combine_array (items : List Value) (value : Value) :
    combine (.array items) value = .array (collect items value.elements) := by
  cases value <;> simp [combine, elements]

@[simp]
theorem combine_object (members incoming : Members) :
    combine (.object members) (.object incoming) =
      .object (mergeMembers members incoming) := by
  simp [combine]

theorem eq_object_of_object? {value : Value} {members : Members}
    (isObject : value.object? = some members) : value = .object members := by
  cases value <;> simp_all [object?]

theorem combine_object_of_object?_eq_none (members : Members) {value : Value}
    (other : value.object? = none) : combine (.object members) value = .object members := by
  cases value <;> simp_all [combine]

theorem mergeMembers_nil (target : Members) : mergeMembers target [] = target := by
  simp [mergeMembers]

theorem mergeMembers_cons (target source : Members) (key : String) (value : Value) :
    mergeMembers target ((key, value) :: source) =
      mergeMembers (Entries.put key (received (Entries.get? key target) value) target)
        source := by
  rw [mergeMembers]
  cases Entries.get? key target <;> rfl

theorem mergeMembers_append (target front back : Members) :
    mergeMembers target (front ++ back) = mergeMembers (mergeMembers target front) back := by
  induction front generalizing target with
  | nil => rw [mergeMembers_nil, List.nil_append]
  | cons member front ih =>
      obtain ⟨key, value⟩ := member
      rw [List.cons_append, mergeMembers_cons, mergeMembers_cons, ih]

/-- Members whose keys do not come stay in front. -/
theorem mergeMembers_append_of_disjoint {front source : Members}
    (disjoint : ∀ key ∈ Entries.keys source, key ∉ Entries.keys front) (back : Members) :
    mergeMembers (front ++ back) source = front ++ mergeMembers back source := by
  induction source generalizing back with
  | nil => rw [mergeMembers_nil, mergeMembers_nil]
  | cons member source ih =>
      obtain ⟨key, value⟩ := member
      have absent := disjoint key (by simp)
      rw [mergeMembers_cons, mergeMembers_cons,
        Entries.get?_append_of_not_mem absent, Entries.put_append_of_not_mem absent, ih]
      intro other inside
      exact disjoint other (by simp [inside])

/-- Merging adds the keys that are not there yet. -/
theorem keys_mergeMembers (target source : Members) :
    Entries.keys (mergeMembers target source) =
      (Entries.keys source).foldl
        (fun kept key => if kept.contains key then kept else kept ++ [key])
        (Entries.keys target) := by
  induction source generalizing target with
  | nil => rw [mergeMembers_nil, Entries.keys_nil, List.foldl_nil]
  | cons member source ih =>
      obtain ⟨key, value⟩ := member
      rw [mergeMembers_cons, ih, Entries.keys_put, Entries.keys_cons, List.foldl_cons]
      simp only [List.contains_iff_mem]

theorem keys_mergeMembers_eq_append (target source : Members) :
    Entries.keys (mergeMembers target source) = Entries.keys target ++
      ((Entries.keys source).filter fun key => !(Entries.keys target).contains key).eraseDups := by
  rw [keys_mergeMembers, foldl_unlessPresent]

theorem mem_keys_mergeMembers {target source : Members} {key : String} :
    key ∈ Entries.keys (mergeMembers target source) ↔
      key ∈ Entries.keys target ∨ key ∈ Entries.keys source := by
  rw [keys_mergeMembers_eq_append, List.mem_append, List.mem_eraseDups, List.mem_filter]
  by_cases present : key ∈ Entries.keys target <;> simp [present]

/-- Merging keeps the keys of an object distinct. -/
theorem nodup_keys_mergeMembers {target : Members} (distinct : (Entries.keys target).Nodup)
    (source : Members) : (Entries.keys (mergeMembers target source)).Nodup := by
  rw [keys_mergeMembers_eq_append]
  apply distinct.append (nodup_eraseDups _)
  intro key old new
  rw [List.mem_eraseDups, List.mem_filter] at new
  simp [old] at new

/-- A source that brings no key leaves the value under the key. -/
theorem get?_mergeMembers_of_not_mem {source : Members} {key : String}
    (absent : key ∉ Entries.keys source) (target : Members) :
    Entries.get? key (mergeMembers target source) = Entries.get? key target := by
  induction source generalizing target with
  | nil => rw [mergeMembers_nil]
  | cons member source ih =>
      obtain ⟨other, value⟩ := member
      rw [Entries.keys_cons, List.mem_cons, not_or] at absent
      rw [mergeMembers_cons, ih absent.2, Entries.get?_put_of_ne (Ne.symm absent.1)]

/-- A key of the source holds what was under the key with the source's value received. -/
theorem get?_mergeMembers_of_get? {source : Members} {key : String} {value : Value}
    (distinct : (Entries.keys source).Nodup) (found : Entries.get? key source = some value)
    (target : Members) : Entries.get? key (mergeMembers target source) =
      some (received (Entries.get? key target) value) := by
  induction source generalizing target with
  | nil => simp at found
  | cons member source ih =>
      obtain ⟨other, incoming⟩ := member
      rw [Entries.keys_cons, List.nodup_cons] at distinct
      rw [mergeMembers_cons]
      by_cases same : other = key
      · subst same
        rw [Entries.get?, if_pos rfl, Option.some.injEq] at found
        rw [get?_mergeMembers_of_not_mem distinct.1, Entries.get?_put_self, found]
      · rw [Entries.get?, if_neg same] at found
        rw [ih distinct.2 found, Entries.get?_put_of_ne same]

/-- What stands under a key after merging. -/
theorem get?_mergeMembers {source : Members} (distinct : (Entries.keys source).Nodup)
    (target : Members) (key : String) :
    Entries.get? key (mergeMembers target source) =
      match Entries.get? key source with
      | none => Entries.get? key target
      | some value => some (received (Entries.get? key target) value) := by
  cases found : Entries.get? key source with
  | none => exact get?_mergeMembers_of_not_mem (Entries.get?_eq_none_iff.mp found) target
  | some value => exact get?_mergeMembers_of_get? distinct found target

/-- Merging keeps keys distinct at every depth. -/
theorem wellKeyed_combine {present incoming : Value} (presentKeyed : present.WellKeyed)
    (incomingKeyed : incoming.WellKeyed) : (combine present incoming).WellKeyed := by
  cases present with
  | array items =>
      rw [combine_array, collect_eq]
      refine .array fun item member => ?_
      rcases List.mem_append.mp member with old | new
      · exact presentKeyed.item old
      · exact incomingKeyed.elements (mem_of_mem_newElements new)
  | object members =>
      cases isObject : incoming.object? with
      | none => rwa [combine_object_of_object?_eq_none members isObject]
      | some source =>
          have shape := eq_object_of_object? isObject
          rw [shape] at incomingKeyed
          rw [shape, combine_object]
          have distinct := nodup_keys_mergeMembers presentKeyed.distinct source
          refine .object distinct ?_
          rintro ⟨key, value⟩ member
          have found := Entries.get?_of_mem distinct member
          cases brought : Entries.get? key source with
          | none =>
              rw [get?_mergeMembers_of_not_mem (Entries.get?_eq_none_iff.mp brought)] at found
              exact presentKeyed.member found
          | some value =>
              have smaller := sizeOf_lt_of_get? brought
              rw [get?_mergeMembers_of_get? incomingKeyed.distinct brought,
                Option.some.injEq] at found
              subst found
              cases old : Entries.get? key members with
              | none => exact incomingKeyed.member brought
              | some before =>
                  exact wellKeyed_combine (presentKeyed.member old)
                    (incomingKeyed.member brought)
  | _ => rwa [combine_scalar (by simp) (by simp)]
termination_by sizeOf incoming
decreasing_by
  rw [shape, object.sizeOf_spec]
  omega

theorem foldl_combine_scalar {scalar : Value} (noArray : ∀ items, scalar ≠ .array items)
    (noObject : ∀ members, scalar ≠ .object members) (values : List Value) :
    values.foldl combine scalar = scalar := by
  induction values with
  | nil => rfl
  | cons value values ih => rw [List.foldl_cons, combine_scalar noArray noObject, ih]

theorem foldl_combine_array (items : List Value) (values : List Value) :
    values.foldl combine (.array items) = .array (collect items (values.flatMap elements)) := by
  induction values generalizing items with
  | nil => rfl
  | cons value values ih =>
      rw [List.foldl_cons, combine_array, ih, List.flatMap_cons, collect_append]

theorem foldl_combine_object (members : Members) (values : List Value) :
    values.foldl combine (.object members) =
      .object (mergeAll members (values.filterMap object?)) := by
  induction values generalizing members with
  | nil => rfl
  | cons value values ih =>
      cases isObject : value.object? with
      | none =>
          rw [List.foldl_cons, combine_object_of_object?_eq_none members isObject, ih,
            List.filterMap_cons_none isObject]
      | some incoming =>
          rw [List.foldl_cons, eq_object_of_object? isObject, combine_object, ih]
          rfl

end ApiAssembly.Value
