import ApiAssembly.Proofs.Document.Handling

/-!
# Rounds of provision

Rounds follow each other for as long as names are needed.  Every round but the last adds
a schema of the pool that no earlier round added, so the rounds come to an end, and the
bound with which a collection is resolved is never reached.  At the end every reference
is settled.
-/

namespace ApiAssembly.Document

/-- The rounds that lead from one resolution to another, which needs no names. -/
inductive Settles (pool : String → Option Value) : Resolution → Resolution → Prop where
  | done {resolution : Resolution} (nothing : resolution.needed = []) :
      Settles pool resolution resolution
  | round {resolution final : Resolution} (something : resolution.needed ≠ [])
      (later : Settles pool
        (resolution.needed.foldl (Resolution.provide pool) resolution) final) :
      Settles pool resolution final

/-- What holds of the names that were handled before some round. -/
structure HandledNames (pool : String → Option Value) (document : Members)
    (names : List String) : Prop where
  distinct : names.Nodup
  undefined : ∀ name ∈ names, defines document name = false
  referred : ∀ name ∈ names,
    name ∈ (Value.object (afterHandling pool document names).document).referenceNames

section Rounds

variable {pool : String → Option Value} {document : Members}

theorem Settles.needed_eq_nil {start final : Resolution} (rounds : Settles pool start final) :
    final.needed = [] := by
  induction rounds with
  | done nothing => exact nothing
  | round _ _ ih => exact ih

theorem Settles.unique {start first second : Resolution} (left : Settles pool start first)
    (right : Settles pool start second) : first = second := by
  induction left with
  | done nothing =>
      cases right with
      | done => rfl
      | round something => exact absurd nothing something
  | round something _ ih =>
      cases right with
      | done nothing => exact absurd nothing something
      | round _ later => exact ih later

theorem handledNames_nil : HandledNames pool document [] :=
  ⟨List.nodup_nil, by simp, by simp⟩

theorem HandledNames.round {names : List String} (handled : HandledNames pool document names) :
    HandledNames pool document
      (names ++ (afterHandling pool document names).needed) := by
  have needed := mem_needed_afterHandling pool document names
  obtain ⟨front, back, -, references⟩ := exists_referenceNames_afterHandling pool document
  have kept : ∀ name, name ∈
      (Value.object (afterHandling pool document names).document).referenceNames →
      name ∈ (Value.object (afterHandling pool document
        (names ++ (afterHandling pool document names).needed)).document).referenceNames := by
    intro name member
    rw [references] at member ⊢
    simp only [List.flatMap_append, List.mem_append] at member ⊢
    tauto
  constructor
  · apply handled.distinct.append (nodup_needed_afterHandling pool document names)
    intro name old new
    exact ((needed name).mp new).2.2 old
  · intro name member
    rcases List.mem_append.mp member with old | new
    · exact handled.undefined name old
    · exact ((needed name).mp new).2.1
  · intro name member
    apply kept
    rcases List.mem_append.mp member with old | new
    · exact handled.referred name old
    · exact ((needed name).mp new).1

/-- Rounds handle names, and nothing else happens in them. -/
theorem Settles.exists_afterHandling {names : List String} {start final : Resolution}
    (rounds : Settles pool start final) (begin : start = afterHandling pool document names)
    (handled : HandledNames pool document names) :
    ∃ all, final = afterHandling pool document all ∧ HandledNames pool document all := by
  induction rounds generalizing names with
  | done => exact ⟨names, begin, handled⟩
  | round _ _ ih =>
      subst begin
      exact ih (foldl_provide_needed pool document names) handled.round

/-- A schema of the pool that is handled for the first time leaves fewer of them. -/
theorem length_unhandled_lt {stock names fresh : List String} {name : String}
    (stocked : name ∈ stock) (unhandled : name ∉ names) (added : name ∈ fresh) :
    (stock.filter fun other => !(names ++ fresh).contains other).length <
      (stock.filter fun other => !names.contains other).length := by
  have twice : (stock.filter fun other => !(names ++ fresh).contains other) =
      (stock.filter fun other => !names.contains other).filter
        fun other => !fresh.contains other := by
    rw [List.filter_filter]
    apply List.filter_congr
    intro other _
    rw [List.contains_eq_mem, List.contains_eq_mem, List.contains_eq_mem]
    by_cases old : other ∈ names <;> by_cases new : other ∈ fresh <;> simp [old, new]
  rw [twice]
  apply List.length_filter_lt_length_iff_exists.mpr
  exact ⟨name, by simp [stocked, unhandled], by simp [added]⟩

/-- A round that adds no schema is the last one. -/
theorem needed_after_barren_round {names : List String}
    (barren : ∀ name ∈ (afterHandling pool document names).needed,
      offered? pool document name = none) :
    (afterHandling pool document
      (names ++ (afterHandling pool document names).needed)).needed = [] := by
  have noReferences : (afterHandling pool document names).needed.flatMap
      (newReferences pool document) = [] := by
    apply List.flatMap_eq_nil_iff.mpr
    intro name member
    rw [newReferences, barren name member]
  rw [needed_after_round, noReferences]
  rfl

theorem settle_of_needed_eq_nil {resolution : Resolution} (nothing : resolution.needed = [])
    (bound : Nat) : Resolution.settle pool bound resolution = resolution := by
  cases bound with
  | zero => rfl
  | succ bound => simp [Resolution.settle, nothing]

/-- A bound above the number of schemas that can still be added is never reached. -/
theorem settles_settle (document : Members) {stock : List String}
    (stocked : ∀ name schema, pool name = some schema → name ∈ stock) {bound : Nat}
    (names : List String)
    (enough : (stock.filter fun name => !names.contains name).length < bound) :
    Settles pool (afterHandling pool document names)
      (Resolution.settle pool bound (afterHandling pool document names)) := by
  induction bound generalizing names with
  | zero => omega
  | succ bound ih =>
      by_cases nothing : (afterHandling pool document names).needed = []
      · rw [settle_of_needed_eq_nil nothing]
        exact .done nothing
      · have step : Resolution.settle pool (bound + 1) (afterHandling pool document names) =
            Resolution.settle pool bound (afterHandling pool document
              (names ++ (afterHandling pool document names).needed)) := by
          rw [← foldl_provide_needed, Resolution.settle]
          split
          · contradiction
          · rfl
        rw [step]
        refine .round nothing ?_
        rw [foldl_provide_needed]
        by_cases barren : ∀ name ∈ (afterHandling pool document names).needed,
            offered? pool document name = none
        · rw [settle_of_needed_eq_nil (needed_after_barren_round barren)]
          exact .done (needed_after_barren_round barren)
        · push Not at barren
          obtain ⟨name, member, available⟩ := barren
          have unsettled := ((mem_needed_afterHandling pool document _ _).mp member).2
          obtain ⟨schema, found⟩ := Option.ne_none_iff_exists'.mp available
          have inPool : pool name = some schema := by
            rw [offered?] at found
            split at found
            · exact found
            · cases found
          have fewer := length_unhandled_lt (stocked name schema inPool) unsettled.2 member
          apply ih
          omega

end Rounds

end ApiAssembly.Document
