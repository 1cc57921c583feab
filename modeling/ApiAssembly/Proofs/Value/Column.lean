import ApiAssembly.Proofs.Value.Merging
import Mathlib.Data.List.Induction

/-!
# Columns of values

A list of fragments read side by side: the first value of a column decides what the
others count for.  A scalar stands alone, a sequence goes on with the new elements of the
others, and an object has, under each key of the objects in the column, the column of
their values for the key.  The main statement says that merging fragments one after the
other into the first one gives this column.
-/

namespace ApiAssembly.Value

theorem sizeOf_filterMap_le {α β : Type} [SizeOf α] [SizeOf β] {select : α → Option β}
    (smaller : ∀ item selected, select item = some selected → sizeOf selected ≤ sizeOf item)
    (items : List α) : sizeOf (items.filterMap select) ≤ sizeOf items := by
  induction items with
  | nil => simp
  | cons item items ih =>
      cases selected : select item with
      | none =>
          rw [List.filterMap_cons_none selected, List.cons.sizeOf_spec]
          omega
      | some result =>
          have bound := smaller item result selected
          rw [List.filterMap_cons_some selected, List.cons.sizeOf_spec, List.cons.sizeOf_spec]
          omega

theorem sizeOf_le_of_object? (value : Value) (members : Members)
    (isObject : value.object? = some members) : sizeOf members ≤ sizeOf value := by
  rw [eq_object_of_object? isObject, object.sizeOf_spec]
  omega

/-- The values that mappings give to a key, in the order of the mappings. -/
def given (key : String) (mappings : List Members) : List Value :=
  mappings.filterMap (Entries.get? key)

/-- The keys of mappings in the order of their first occurrence. -/
def columnKeys (mappings : List Members) : List String :=
  (mappings.flatMap Entries.keys).eraseDups

/-- The value of a column of values. -/
def column (first : Value) (rest : List Value) : Value :=
  match first with
  | .array items => .array (items ++ newElements items (rest.flatMap elements))
  | .object members =>
    .object (Entries.tabulate (columnKeys (members :: rest.filterMap object?)) fun key =>
      match _values : given key (members :: rest.filterMap object?) with
      | [] => none
      | value :: others => some (column value others))
  | scalar => scalar
termination_by sizeOf (first :: rest)
decreasing_by
  have objects := sizeOf_filterMap_le sizeOf_le_of_object? rest
  have smaller : ∀ members found, Entries.get? key members = some found →
      sizeOf found ≤ sizeOf members := fun _ _ found => Nat.le_of_lt (sizeOf_lt_of_get? found)
  have values := sizeOf_filterMap_le smaller (members :: rest.filterMap object?)
  rw [← given, _values] at values
  simp only [List.cons.sizeOf_spec, object.sizeOf_spec] at values ⊢
  omega

/-- The value of a column that may be empty. -/
def column? : List Value → Option Value
  | [] => none
  | value :: others => some (column value others)

theorem column_object (members : Members) (rest : List Value) :
    column (.object members) rest =
      .object (Entries.tabulate (columnKeys (members :: rest.filterMap object?)) fun key =>
        column? (given key (members :: rest.filterMap object?))) := by
  rw [column]
  congr 2
  funext key
  cases given key (members :: rest.filterMap object?) <;> rfl

/-- The value under a key after merging: the first value that is given to it, with the
later ones combined into it. -/
def combined? : List Value → Option Value
  | [] => none
  | value :: others => some (others.foldl combine value)

theorem combined?_concat (values : List Value) (value : Value) :
    combined? (values ++ [value]) = some (received (combined? values) value) := by
  cases values with
  | nil => rfl
  | cons first others => simp [combined?, received]

theorem keys_mergeAll (target : Members) (sources : List Members) :
    Entries.keys (mergeAll target sources) =
      (sources.flatMap Entries.keys).foldl
        (fun kept key => if kept.contains key then kept else kept ++ [key])
        (Entries.keys target) := by
  induction sources generalizing target with
  | nil => rfl
  | cons source sources ih =>
      rw [mergeAll, List.foldl_cons, ← mergeAll, ih, keys_mergeMembers, List.flatMap_cons,
        List.foldl_append]

/-- The merged keys are those of the target and the sources by first occurrence. -/
theorem keys_mergeAll_of_nodup {target : Members} (distinct : (Entries.keys target).Nodup)
    (sources : List Members) : Entries.keys (mergeAll target sources) =
      columnKeys (target :: sources) := by
  rw [keys_mergeAll, columnKeys, foldl_unlessPresent, List.flatMap_cons, List.eraseDups_append,
    eraseDups_of_nodup distinct]
  rfl

theorem given_concat (key : String) (mappings : List Members) (last : Members) :
    given key (mappings ++ [last]) = given key mappings ++ (Entries.get? key last).toList := by
  cases found : Entries.get? key last <;> simp [given, found]

theorem get?_mergeAll (target : Members) {sources : List Members}
    (distinct : ∀ source ∈ sources, (Entries.keys source).Nodup) (key : String) :
    Entries.get? key (mergeAll target sources) = combined? (given key (target :: sources)) := by
  induction sources using List.reverseRecOn with
  | nil => cases found : Entries.get? key target <;> simp [given, combined?, found]
  | append_singleton sources last ih =>
      have before := ih fun source member => distinct source (by simp [member])
      have merged : mergeAll target (sources ++ [last]) =
          mergeMembers (mergeAll target sources) last := by simp [mergeAll]
      rw [merged, ← List.cons_append, given_concat]
      cases found : Entries.get? key last with
      | none =>
          rw [get?_mergeMembers_of_not_mem (Entries.get?_eq_none_iff.mp found), before]
          simp
      | some value =>
          rw [get?_mergeMembers_of_get? (distinct last (by simp)) found, before]
          exact (combined?_concat _ value).symm

theorem column_scalar {scalar : Value} (noArray : ∀ items, scalar ≠ .array items)
    (noObject : ∀ members, scalar ≠ .object members) (rest : List Value) :
    column scalar rest = scalar := by
  rw [column]
  · exact noArray
  · exact noObject

theorem exists_given_of_mem_columnKeys {key : String} {mappings : List Members}
    (member : key ∈ columnKeys mappings) :
    ∃ value others, given key mappings = value :: others := by
  rw [columnKeys, List.mem_eraseDups, List.mem_flatMap] at member
  obtain ⟨mapping, inside, present⟩ := member
  obtain ⟨value, found⟩ := Entries.exists_get?_of_mem_keys present
  have given : value ∈ given key mappings := List.mem_filterMap.mpr ⟨mapping, inside, found⟩
  exact List.exists_cons_of_ne_nil (List.ne_nil_of_mem given)

theorem wellKeyed_of_mem_given {key : String} {mappings : List Members}
    (wellKeyed : ∀ mapping ∈ mappings, (object mapping).WellKeyed) {value : Value}
    (member : value ∈ given key mappings) : value.WellKeyed := by
  obtain ⟨mapping, inside, found⟩ := List.mem_filterMap.mp member
  exact (wellKeyed mapping inside).member found

theorem wellKeyed_of_mem_objects {values : List Value}
    (wellKeyed : ∀ value ∈ values, value.WellKeyed) {mapping : Members}
    (member : mapping ∈ values.filterMap object?) : (object mapping).WellKeyed := by
  obtain ⟨value, inside, isObject⟩ := List.mem_filterMap.mp member
  exact eq_object_of_object? isObject ▸ wellKeyed value inside

/-- Combining the values of a column one after the other gives the value of the column. -/
theorem foldl_combine_eq_column (first : Value) (rest : List Value)
    (wellKeyed : ∀ value ∈ first :: rest, value.WellKeyed) :
    rest.foldl combine first = column first rest := by
  induction first, rest using column.induct with
  | case1 rest items => rw [foldl_combine_array, column, collect_eq]
  | case2 rest members ih =>
      have mappings : ∀ mapping ∈ members :: rest.filterMap object?,
          (object mapping).WellKeyed := by
        intro mapping member
        exact wellKeyed_of_mem_objects wellKeyed (by simpa [object?] using member)
      have keys := keys_mergeAll_of_nodup (mappings members (by simp)).distinct
        (rest.filterMap object?)
      rw [foldl_combine_object, column_object]
      congr 1
      apply Entries.ext_of_nodup
      · rw [keys, Entries.keys_tabulate]
        intro key member
        obtain ⟨value, others, values⟩ := exists_given_of_mem_columnKeys member
        simp [values, column?]
      · rw [keys]
        exact nodup_eraseDups _
      · intro key member
        rw [keys] at member
        obtain ⟨value, others, values⟩ := exists_given_of_mem_columnKeys member
        have valuesKeyed : ∀ other ∈ value :: others, other.WellKeyed := by
          intro other inside
          rw [← values] at inside
          exact wellKeyed_of_mem_given mappings inside
        rw [get?_mergeAll members fun source inside =>
            (mappings source (by simp [inside])).distinct,
          Entries.get?_tabulate member, values, combined?, column?,
          ih key value others values valuesKeyed]
  | case3 rest scalar noArray noObject =>
      rw [foldl_combine_scalar noArray noObject, column_scalar noArray noObject]

/-- Merging fragments one after the other into the first one gives the column of all of
them: nothing is lost between two fragments that the first one or a later one keeps. -/
theorem mergeAll_eq_column (first : Members) (rest : List Members)
    (wellKeyed : ∀ fragment ∈ first :: rest, (object fragment).WellKeyed) :
    .object (mergeAll first rest) = column (.object first) (rest.map .object) := by
  have values : ∀ value ∈ object first :: rest.map object, value.WellKeyed := by
    intro value member
    rw [← List.map_cons, List.mem_map] at member
    obtain ⟨fragment, inside, rfl⟩ := member
    exact wellKeyed fragment inside
  have objects : (rest.map object).filterMap object? = rest := by
    rw [List.filterMap_map]
    exact List.filterMap_some
  rw [← foldl_combine_eq_column (.object first) (rest.map .object) values,
    foldl_combine_object, objects]

/-- A value that the second fragment loses to the first one is merged from the third. -/
theorem column_of_conflicting_kinds :
    (∀ fragment ∈ [[("tags", .array [whole 1, whole 1]), ("paths", .object [("a", .null)])],
        [("paths", .array []), ("servers", .null), ("tags", .object [("b", whole 1)])],
        [("servers", .array []), ("paths", .object [("b", whole 2), ("a", whole 3)]),
          ("tags", .array [whole 2, whole 1, whole 2])]],
      (object fragment).WellKeyed) ∧
    column (.object [("tags", .array [whole 1, whole 1]), ("paths", .object [("a", .null)])])
        [.object [("paths", .array []), ("servers", .null), ("tags", .object [("b", whole 1)])],
          .object [("servers", .array []), ("paths", .object [("b", whole 2), ("a", whole 3)]),
            ("tags", .array [whole 2, whole 1, whole 2])]] =
      .object [("tags", .array [whole 1, whole 1, .object [("b", whole 1)], whole 2]),
        ("paths", .object [("a", .null), ("b", whole 2)]), ("servers", .null)] :=
  ⟨by decide, (mergeAll_eq_column _ [_, _] (by decide)).symm.trans rfl⟩

end ApiAssembly.Value
