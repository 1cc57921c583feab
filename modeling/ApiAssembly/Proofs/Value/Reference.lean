import ApiAssembly.Value.Reference
import Mathlib.Data.List.Nodup

/-!
# The references of a value

The schemas that a value refers to are the first occurrences in the list of all its
references.  That list is additive over the members of an object, so the references that
an added member brings are known from the member alone.
-/

namespace ApiAssembly

/-- Keep the names that a list lacks, each once, behind those of the list. -/
theorem foldl_unlessPresent (names seen : List String) :
    names.foldl (fun kept name => if kept.contains name then kept else kept ++ [name]) seen =
      seen ++ (names.filter fun name => !seen.contains name).eraseDups := by
  induction names generalizing seen with
  | nil => simp
  | cons name names ih =>
      by_cases present : name ∈ seen
      · rw [List.foldl_cons, if_pos (by simpa using present), ih,
          List.filter_cons_of_neg (by simpa using present)]
      · rw [List.foldl_cons, if_neg (by simpa using present), ih]
        simp only [List.filter_cons, List.eraseDups_cons, List.contains_eq_mem, present,
          decide_false, Bool.not_false, if_true, List.filter_filter, List.append_assoc,
          List.cons_append, List.nil_append]
        congr 3
        apply List.filter_congr
        intro other _
        by_cases same : other = name <;> simp [same]

/-- First occurrences are distinct. -/
theorem nodup_eraseDups (names : List String) : names.eraseDups.Nodup := by
  match names with
  | [] => simp
  | name :: names =>
      have rest := nodup_eraseDups (names.filter fun other => !other == name)
      have fresh : name ∉ (names.filter fun other => !other == name).eraseDups := by
        simp [List.mem_eraseDups]
      simpa only [List.eraseDups_cons] using rest.cons fresh
termination_by names.length
decreasing_by
  simpa using Nat.lt_succ_of_le (List.length_filter_le _ _)

/-- It does not matter whether names are selected before or after repetitions are dropped. -/
theorem eraseDups_filter (select : String → Bool) (names : List String) :
    (names.filter select).eraseDups = names.eraseDups.filter select := by
  match names with
  | [] => simp
  | name :: names =>
      have rest := eraseDups_filter select (names.filter fun other => !other == name)
      rw [List.eraseDups_cons]
      by_cases selected : select name = true
      · rw [List.filter_cons_of_pos selected, List.filter_cons_of_pos selected,
          List.eraseDups_cons, ← rest, List.filter_filter, List.filter_filter]
        simp only [Bool.and_comm]
      · have unaffected : ((names.filter fun other => !other == name).filter select) =
            names.filter select := by
          rw [List.filter_filter]
          apply List.filter_congr
          intro other _
          by_cases same : other = name <;> simp [same, selected]
        rw [List.filter_cons_of_neg selected, List.filter_cons_of_neg selected, ← rest,
          unaffected]
termination_by names.length
decreasing_by
  simpa using Nat.lt_succ_of_le (List.length_filter_le _ _)

/-- Distinct names are their own first occurrences. -/
theorem eraseDups_of_nodup {names : List String} (distinct : names.Nodup) :
    names.eraseDups = names := by
  induction names with
  | nil => simp
  | cons name names ih =>
      rw [List.nodup_cons] at distinct
      have others : (names.filter fun other => !other == name) = names := by
        apply List.filter_eq_self.mpr
        intro other member
        have different : other ≠ name := fun same => distinct.1 (same ▸ member)
        simp [different]
      rw [List.eraseDups_cons, others, ih distinct.2]

namespace Value

/-- The names of the schemas that a value refers to, as often as it refers to them. -/
def referenceNames (value : Value) : List String :=
  (value.keyed "$ref").filterMap fun target => target.string?.bind referencedName?

theorem schemaReferences_eq_eraseDups (value : Value) :
    value.schemaReferences = value.referenceNames.eraseDups := by
  have kept := foldl_unlessPresent value.referenceNames []
  simpa [schemaReferences, referenceNames] using kept

@[simp]
theorem mem_schemaReferences {name : String} {value : Value} :
    name ∈ value.schemaReferences ↔ name ∈ value.referenceNames := by
  rw [schemaReferences_eq_eraseDups, List.mem_eraseDups]

theorem nodup_schemaReferences (value : Value) : value.schemaReferences.Nodup := by
  rw [schemaReferences_eq_eraseDups]
  exact nodup_eraseDups _

theorem keyedMembers_append (key : String) (front back : Members) :
    keyedMembers key (front ++ back) = keyedMembers key front ++ keyedMembers key back := by
  induction front with
  | nil => simp [keyedMembers]
  | cons member front ih =>
      obtain ⟨name, value⟩ := member
      simp [keyedMembers, ih]

@[simp]
theorem referenceNames_object_nil : (object []).referenceNames = [] := rfl

theorem referenceNames_object_append (front back : Members) :
    (object (front ++ back)).referenceNames =
      (object front).referenceNames ++ (object back).referenceNames := by
  simp [referenceNames, keyed, keyedMembers_append]

/-- A member that is not itself a reference brings the references of its value. -/
theorem referenceNames_object_singleton {key : String} (ordinary : key ≠ "$ref")
    (value : Value) : (object [(key, value)]).referenceNames = value.referenceNames := by
  simp [referenceNames, keyed, keyedMembers, ordinary]

theorem referenceNames_object_cons (member : String × Value) (rest : Members) :
    (object (member :: rest)).referenceNames =
      (object [member]).referenceNames ++ (object rest).referenceNames :=
  referenceNames_object_append [member] rest

end Value

end ApiAssembly
