import ApiAssembly.Proofs.Value.Growth
import Mathlib.Data.List.Induction

/-!
# Merging is associative

Three mappings can be merged in either grouping if no two of them disagree on the shape of
what stands at a path of keys.  Scalars are then met by scalars only, so the first one stays;
sequences are met by sequences, and an element that one of them drops equals an element that
all larger ones have too, since equality of values is transitive; and mappings are merged key
by key.
-/

namespace ApiAssembly

theorem Decimal.Binary64.same_trans {first second third : Binary64}
    (left : first.same second = true) (right : second.same third = true) :
    first.same third = true := by
  simp only [same, Bool.or_eq_true, beq_iff_eq, Bool.and_eq_true] at left right ⊢
  rcases left with rfl | ⟨firstZero, secondZero⟩
  · exact right
  · rcases right with rfl | ⟨-, thirdZero⟩
    · exact .inr ⟨firstZero, secondZero⟩
    · exact .inr ⟨firstZero, thirdZero⟩

theorem Number.same_trans {first second third : Number} (left : first.same second = true)
    (right : second.same third = true) : first.same third = true := by
  cases first with
  | whole first =>
      cases second <;> cases third <;> simp_all [Number.same]
  | float first =>
      cases second with
      | whole second => simp [Number.same] at left
      | float second =>
          cases third with
          | whole third => simp [Number.same] at right
          | float third => exact Decimal.Binary64.same_trans left right

namespace Value

section Sameness

theorem sameMembers_cons_iff {key : String} {left : Value} {lefts rights : Members} :
    sameMembers ((key, left) :: lefts) rights = true ↔
      (∃ right, Entries.get? key rights = some right ∧ left.same right = true) ∧
        sameMembers lefts rights = true := by
  rw [sameMembers, Bool.and_eq_true]
  cases Entries.get? key rights <;> simp

theorem exists_same_of_sameMembers {lefts rights : Members} {key : String} {left : Value}
    (same : sameMembers lefts rights = true) (found : Entries.get? key lefts = some left) :
    ∃ right, Entries.get? key rights = some right ∧ left.same right = true := by
  induction lefts with
  | nil => cases found
  | cons member lefts ih =>
      obtain ⟨name, value⟩ := member
      obtain ⟨first, later⟩ := sameMembers_cons_iff.mp same
      rw [Entries.get?] at found
      split at found
      next here =>
        cases found
        exact here ▸ first
      next => exact ih later found

mutual

/-- What equals an equal value equals the value. -/
theorem same_trans {second third : Value} : (first : Value) → first.same second = true →
    second.same third = true → first.same third = true
  | .null, left, right => by
      cases second with
      | null => exact right
      | _ => simp [same] at left
  | .bool _, left, right => by
      cases second with
      | bool _ => exact (of_decide_eq_true left) ▸ right
      | _ => simp [same] at left
  | .number first, left, right => by
      cases second <;> cases third <;> simp only [same, Bool.false_eq_true] at left right ⊢
      exact Number.same_trans left right
  | .string _, left, right => by
      cases second with
      | string _ => exact (of_decide_eq_true left) ▸ right
      | _ => simp [same] at left
  | .array firsts, left, right => by
      cases second <;> cases third <;> simp only [same, Bool.false_eq_true] at left right ⊢
      exact sameItems_trans firsts left right
  | .object firsts, left, right => by
      cases second <;> cases third <;>
        simp only [same, Bool.and_eq_true, decide_eq_true_eq, Bool.false_eq_true] at left right ⊢
      exact ⟨left.1.trans right.1, sameMembers_trans firsts left.2 right.2⟩

theorem sameItems_trans {seconds thirds : List Value} : (firsts : List Value) →
    sameItems firsts seconds = true → sameItems seconds thirds = true →
      sameItems firsts thirds = true
  | [], left, right => by
      cases seconds <;> simp_all [sameItems]
  | first :: firsts, left, right => by
      cases seconds <;> cases thirds <;>
        simp only [sameItems, Bool.and_eq_true, Bool.false_eq_true] at left right ⊢
      exact ⟨same_trans first left.1 right.1, sameItems_trans firsts left.2 right.2⟩

theorem sameMembers_trans {seconds thirds : Members} : (firsts : List (String × Value)) →
    sameMembers firsts seconds = true → sameMembers seconds thirds = true →
      sameMembers firsts thirds = true
  | [], _, _ => by
      rw [sameMembers]
  | (_, first) :: firsts, left, right => by
      obtain ⟨⟨second, found, same⟩, later⟩ := sameMembers_cons_iff.mp left
      obtain ⟨third, foundThird, sameThird⟩ := exists_same_of_sameMembers right found
      exact sameMembers_cons_iff.mpr ⟨⟨third, foundThird, same_trans first same sameThird⟩,
        sameMembers_trans firsts later right⟩

end

end Sameness

section Sequences

/-- Elements that are known to fewer items can be left out before the others are asked. -/
theorem newElements_of_covered {items known incoming : List Value}
    (covered : ∀ element ∈ known, ∃ present ∈ items, present.same element = true)
    (reflexive : ∀ element ∈ incoming, element.same element = true) :
    newElements items (newElements known incoming) = newElements items incoming := by
  induction incoming generalizing items known with
  | nil => rfl
  | cons element rest ih =>
      obtain ⟨self, later⟩ := List.forall_mem_cons.mp reflexive
      by_cases old : (known.any fun present => present.same element) = true
      · obtain ⟨between, inKnown, same⟩ := List.any_eq_true.mp old
        obtain ⟨present, inItems, sameBetween⟩ := covered between inKnown
        have present : (items.any fun present => present.same element) = true :=
          List.any_eq_true.mpr ⟨present, inItems, same_trans present sameBetween same⟩
        rw [newElements, if_pos old, newElements, if_pos present]
        exact ih covered later
      · rw [newElements, if_neg old, newElements, newElements]
        by_cases present : (items.any fun present => present.same element) = true
        · rw [if_pos present, if_pos present]
          refine ih (List.forall_mem_append.mpr ⟨covered, ?_⟩) later
          exact List.forall_mem_singleton.mpr (List.any_eq_true.mp present)
        · rw [if_neg present, if_neg present]
          congr 1
          refine ih (List.forall_mem_append.mpr ⟨fun known member => ?_, ?_⟩) later
          · obtain ⟨present, inside, same⟩ := covered known member
            exact ⟨present, List.mem_append_left _ inside, same⟩
          · exact List.forall_mem_singleton.mpr ⟨element, by simp, self⟩

theorem collect_assoc {first second third : List Value}
    (secondReflexive : ∀ element ∈ second, element.same element = true)
    (thirdReflexive : ∀ element ∈ third, element.same element = true) :
    collect (collect first second) third = collect first (collect second third) := by
  have covered : ∀ element ∈ second,
      ∃ present ∈ collect first second, present.same element = true := by
    intro element member
    rw [collect_eq]
    exact exists_same_of_mem (secondReflexive element member) member
  rw [collect_eq second third, collect_append, collect_eq _ third, collect_eq _ (newElements _ _),
    newElements_of_covered covered thirdReflexive]

end Sequences

section Mappings

/-- A key behind those before it, unless it is among them. -/
def addKey (kept : List String) (key : String) : List String :=
  if kept.contains key then kept else kept ++ [key]

theorem mem_addKey {kept : List String} {key other : String} :
    other ∈ addKey kept key ↔ other ∈ kept ∨ other = key := by
  rw [addKey]
  split
  next present =>
    rw [List.contains_iff_mem] at present
    exact ⟨.inl, fun member => member.elim id fun same => same ▸ present⟩
  next => simp

theorem mem_foldl_addKey {kept keys : List String} {key : String} (member : key ∈ keys) :
    key ∈ keys.foldl addKey kept := by
  induction keys using List.reverseRecOn with
  | nil => cases member
  | append_singleton keys last ih =>
      rw [List.foldl_concat, mem_addKey]
      rcases List.mem_append.mp member with early | same
      · exact .inl (ih early)
      · exact .inr (List.mem_singleton.mp same)

/-- Keys can be added to others one after the other or with the repeated ones left out. -/
theorem foldl_addKey_assoc (first second third : List String) :
    third.foldl addKey (second.foldl addKey first) =
      (third.foldl addKey second).foldl addKey first := by
  induction third using List.reverseRecOn with
  | nil => rfl
  | append_singleton third last ih =>
      rw [List.foldl_concat, List.foldl_concat, ih]
      by_cases known : last ∈ third.foldl addKey second
      · have present := @mem_foldl_addKey first _ _ known
        rw [addKey, if_pos (by simpa using present), addKey, if_pos (by simpa using known)]
      · rw [addKey.eq_def (third.foldl addKey second), if_neg (by simpa using known),
          List.foldl_concat]

/-- Keys come in the same order in either grouping. -/
theorem keys_mergeMembers_assoc (first second third : Members) :
    Entries.keys (mergeMembers (mergeMembers first second) third) =
      Entries.keys (mergeMembers first (mergeMembers second third)) := by
  have merged (target source : Members) : Entries.keys (mergeMembers target source) =
      (Entries.keys source).foldl addKey (Entries.keys target) := keys_mergeMembers target source
  rw [merged, merged, merged, merged, foldl_addKey_assoc]

end Mappings

/-- What merging tells apart in a value. -/
inductive Shape where
  | mapping | sequence | scalar
deriving DecidableEq

def shape : Value → Shape
  | .object _ => .mapping
  | .array _ => .sequence
  | _ => .scalar

/-- The value at the end of a path of keys, each of them a key of a mapping. -/
def atKeys? : List String → Value → Option Value
  | [], value => some value
  | key :: path, value => (value.member? key).bind (atKeys? path)

/-- Wherever a path of keys leads to a value in both, these values have the same shape. -/
def Alike (left right : Value) : Prop :=
  ∀ path first second, left.atKeys? path = some first → right.atKeys? path = some second →
    first.shape = second.shape

section Shapes

variable {left right : Value} {lefts rights : Members}

theorem eq_array_of_shape (sequence : left.shape = .sequence) : ∃ items, left = .array items := by
  cases left <;> simp_all [shape]

theorem eq_object_of_shape (mapping : left.shape = .mapping) :
    ∃ members, left = .object members := by
  cases left <;> simp_all [shape]

theorem Alike.shape_eq (alike : left.Alike right) : left.shape = right.shape :=
  alike [] left right rfl rfl

theorem Alike.member (alike : (object lefts).Alike (.object rights)) {key : String}
    (inLeft : Entries.get? key lefts = some left)
    (inRight : Entries.get? key rights = some right) : left.Alike right := by
  intro path first second foundFirst foundSecond
  apply alike (key :: path) first second
  · rw [atKeys?, member?_object, inLeft, Option.bind_some, foundFirst]
  · rw [atKeys?, member?_object, inRight, Option.bind_some, foundSecond]

theorem alike_object (each : ∀ member ∈ lefts, ∀ value ∈ Entries.get? member.1 rights,
    member.2.Alike value) : (object lefts).Alike (.object rights) := by
  rintro (_ | ⟨key, path⟩) first second foundFirst foundSecond
  · cases foundFirst
    cases foundSecond
    rfl
  · obtain ⟨left, inLeft, firstBelow⟩ := Option.bind_eq_some_iff.mp foundFirst
    obtain ⟨right, inRight, secondBelow⟩ := Option.bind_eq_some_iff.mp foundSecond
    exact each (key, left) (Entries.mem_of_get? inLeft) right inRight path first second
      firstBelow secondBelow

/-- No key leads on from a value that is no mapping. -/
theorem alike_of_ne_mapping (same : left.shape = right.shape) (noMapping : left.shape ≠ .mapping) :
    left.Alike right := by
  rintro (_ | ⟨key, path⟩) first second foundFirst foundSecond
  · cases foundFirst
    cases foundSecond
    exact same
  · cases left with
    | object members => exact absurd rfl noMapping
    | _ => cases foundFirst

end Shapes

/-- Three values that are alike are combined in either grouping. -/
theorem combine_assoc {first second third : Value} (firstKeyed : first.WellKeyed)
    (secondKeyed : second.WellKeyed) (thirdKeyed : third.WellKeyed)
    (early : first.Alike second) (late : second.Alike third) (outer : first.Alike third) :
    combine (combine first second) third = combine first (combine second third) := by
  cases shaped : first with
  | array firsts =>
      rw [shaped] at early outer
      obtain ⟨seconds, rfl⟩ := eq_array_of_shape early.shape_eq.symm
      obtain ⟨thirds, rfl⟩ := eq_array_of_shape outer.shape_eq.symm
      have assoc := @collect_assoc firsts seconds thirds
        (fun item member => (secondKeyed.item member).same_self)
        (fun item member => (thirdKeyed.item member).same_self)
      simp only [combine_array, elements, assoc]
  | object firsts =>
      rw [shaped] at early outer firstKeyed
      obtain ⟨seconds, rfl⟩ := eq_object_of_shape early.shape_eq.symm
      obtain ⟨thirds, rfl⟩ := eq_object_of_shape outer.shape_eq.symm
      have sourceDistinct := nodup_keys_mergeMembers secondKeyed.distinct thirds
      simp only [combine_object]
      congr 1
      apply Entries.ext_of_nodup (keys_mergeMembers_assoc firsts seconds thirds)
      · exact nodup_keys_mergeMembers (nodup_keys_mergeMembers firstKeyed.distinct _) _
      · intro key _
        rw [get?_mergeMembers thirdKeyed.distinct, get?_mergeMembers secondKeyed.distinct,
          get?_mergeMembers sourceDistinct, get?_mergeMembers thirdKeyed.distinct]
        cases inThird : Entries.get? key thirds with
        | none => rfl
        | some last =>
            cases inSecond : Entries.get? key seconds with
            | none => rfl
            | some middle =>
                cases inFirst : Entries.get? key firsts with
                | none => rfl
                | some present =>
                    have smaller := sizeOf_lt_of_get? inFirst
                    exact congrArg some (combine_assoc (firstKeyed.member inFirst)
                      (secondKeyed.member inSecond) (thirdKeyed.member inThird)
                      (early.member inFirst inSecond) (late.member inSecond inThird)
                      (outer.member inFirst inThird))
  | _ => simp only [combine_scalar, ne_eq, reduceCtorEq, not_false_eq_true, implies_true]
termination_by sizeOf first
decreasing_by
  rw [shaped, object.sizeOf_spec]
  omega

/-- Of three mappings that are alike, the last two can be merged into the first one after the
other or once they have been merged themselves. -/
theorem mergeMembers_assoc {first second third : Members}
    (firstKeyed : (object first).WellKeyed) (secondKeyed : (object second).WellKeyed)
    (thirdKeyed : (object third).WellKeyed)
    (early : (object first).Alike (.object second)) (late : (object second).Alike (.object third))
    (outer : (object first).Alike (.object third)) :
    mergeMembers (mergeMembers first second) third =
      mergeMembers first (mergeMembers second third) := by
  have assoc := combine_assoc firstKeyed secondKeyed thirdKeyed early late outer
  simpa only [combine_object, object.injEq] using assoc

/-- Mappings that are alike with different scalars, with items that equal each other up to the
order of keys, and with keys that only two of them have. -/
theorem mergeMembers_overlapping :
    let first : Members :=
      [("a", .array [.whole 1, .object [("x", .null), ("y", .null)]]),
        ("b", .object [("c", .null)])]
    let second : Members :=
      [("b", .object [("d", .array [.null]), ("c", .whole 2)]),
        ("a", .array [.object [("y", .null), ("x", .null)], .whole 3, .whole 3])]
    let third : Members :=
      [("e", .whole 4), ("a", .array [.whole 5, .whole 3, .whole 1]),
        ("b", .object [("c", .bool true), ("d", .array [.null, .null, .whole 6])])]
    let result : Members :=
      [("a", .array [.whole 1, .object [("x", .null), ("y", .null)], .whole 3, .whole 5]),
        ("b", .object [("c", .null), ("d", .array [.null, .whole 6])]), ("e", .whole 4)]
    ((object first).WellKeyed ∧ (object second).WellKeyed ∧ (object third).WellKeyed ∧
        (object first).Alike (.object second) ∧ (object second).Alike (.object third) ∧
        (object first).Alike (.object third)) ∧
      mergeMembers (mergeMembers first second) third = result ∧
      mergeMembers first (mergeMembers second third) = result := by
  intro first second third result
  have firstKeyed : (object first).WellKeyed := by decide
  have secondKeyed : (object second).WellKeyed := by decide
  have thirdKeyed : (object third).WellKeyed := by decide
  have plain {left right : Value} := @alike_of_ne_mapping left right
  have early : (object first).Alike (.object second) := by
    apply alike_object
    simp only [first, second, List.forall_mem_cons, Entries.get?]
    refine ⟨?_, ?_, by simp⟩
    · rintro _ ⟨⟩
      exact plain rfl (by decide)
    · rintro _ ⟨⟩
      apply alike_object
      simpa [Entries.get?] using @plain .null (.whole 2) rfl (by decide)
  have late : (object second).Alike (.object third) := by
    apply alike_object
    simp only [second, third, List.forall_mem_cons, Entries.get?]
    refine ⟨?_, ?_, by simp⟩
    · rintro _ ⟨⟩
      apply alike_object
      simpa [Entries.get?] using ⟨plain rfl (by decide), plain rfl (by decide)⟩
    · rintro _ ⟨⟩
      exact plain rfl (by decide)
  have outer : (object first).Alike (.object third) := by
    apply alike_object
    simp only [first, third, List.forall_mem_cons, Entries.get?]
    refine ⟨?_, ?_, by simp⟩
    · rintro _ ⟨⟩
      exact plain rfl (by decide)
    · rintro _ ⟨⟩
      apply alike_object
      simpa [Entries.get?] using @plain .null (.bool true) rfl (by decide)
  have merged : mergeMembers (mergeMembers first second) third = result := by cbv
  have assoc := mergeMembers_assoc firstKeyed secondKeyed thirdKeyed early late outer
  exact ⟨⟨firstKeyed, secondKeyed, thirdKeyed, early, late, outer⟩, merged, assoc ▸ merged⟩

-- A sequence takes both scalars when they come one after the other, and only the first one when
-- they have been merged with each other.
example :
    mergeMembers (mergeMembers [("a", .array [])] [("a", .whole 1)]) [("a", .whole 2)] =
        [("a", .array [.whole 1, .whole 2])] ∧
      mergeMembers [("a", .array [])] (mergeMembers [("a", .whole 1)] [("a", .whole 2)]) =
        [("a", .array [.whole 1])] :=
  ⟨by cbv, by cbv⟩

end Value

end ApiAssembly
