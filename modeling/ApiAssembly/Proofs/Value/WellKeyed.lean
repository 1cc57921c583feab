import ApiAssembly.Proofs.Entries
import ApiAssembly.Value.Equality

/-!
# Values with distinct keys

In a well-keyed value no object, at whatever depth, has two members of one key.  Such a
value equals itself.
-/

namespace ApiAssembly

namespace Value

/-- No object in the value has two members of one key. -/
inductive WellKeyed : Value → Prop
  | null : WellKeyed .null
  | bool (value : Bool) : WellKeyed (.bool value)
  | number (value : Number) : WellKeyed (.number value)
  | string (text : String) : WellKeyed (.string text)
  | array {items : List Value} (each : ∀ item ∈ items, WellKeyed item) :
      WellKeyed (.array items)
  | object {members : Members} (distinct : (Entries.keys members).Nodup)
      (each : ∀ member ∈ members, WellKeyed member.2) : WellKeyed (.object members)

theorem WellKeyed.item {items : List Value} (wellKeyed : (Value.array items).WellKeyed)
    {item : Value} (member : item ∈ items) : item.WellKeyed := by
  cases wellKeyed with
  | array each => exact each item member

theorem WellKeyed.distinct {members : Members}
    (wellKeyed : (Value.object members).WellKeyed) : (Entries.keys members).Nodup := by
  cases wellKeyed with
  | object distinct => exact distinct

theorem WellKeyed.each {members : Members} (wellKeyed : (Value.object members).WellKeyed)
    {member : String × Value} (inside : member ∈ members) : member.2.WellKeyed := by
  cases wellKeyed with
  | object _ each => exact each member inside

theorem WellKeyed.member {members : Members} (wellKeyed : (Value.object members).WellKeyed)
    {key : String} {value : Value} (found : Entries.get? key members = some value) :
    value.WellKeyed := by
  cases wellKeyed with
  | object _ each => exact each (key, value) (Entries.mem_of_get? found)

theorem sameItems_self {items : List Value} (each : ∀ item ∈ items, item.same item = true) :
    sameItems items items = true := by
  induction items with
  | nil => rfl
  | cons item items ih =>
      have first := each item (by simp)
      have later := ih fun other member => each other (by simp [member])
      simp [sameItems, first, later]

theorem sameMembers_of_get? {lefts rights : Members}
    (each : ∀ member ∈ lefts, Entries.get? member.1 rights = some member.2 ∧
      member.2.same member.2 = true) : sameMembers lefts rights = true := by
  induction lefts with
  | nil => rfl
  | cons member lefts ih =>
      obtain ⟨found, same⟩ := each member (by simp)
      have later := ih fun other inRest => each other (by simp [inRest])
      simp [sameMembers, found, same, later]

mutual

/-- Whether keys are distinct can be decided. -/
def decideWellKeyed : (value : Value) → Decidable value.WellKeyed
  | .null => isTrue .null
  | .bool value => isTrue (.bool value)
  | .number value => isTrue (.number value)
  | .string text => isTrue (.string text)
  | .array items =>
    have := decideItems items
    decidable_of_iff (∀ item ∈ items, item.WellKeyed)
      ⟨.array, fun wellKeyed _ member => wellKeyed.item member⟩
  | .object members =>
    have := decideMembers members
    decidable_of_iff
      ((Entries.keys members).Nodup ∧ ∀ member ∈ members, member.2.WellKeyed)
      ⟨fun parts => .object parts.1 parts.2, fun wellKeyed => ⟨wellKeyed.distinct,
        fun _ inside => wellKeyed.member (Entries.get?_of_mem wellKeyed.distinct inside)⟩⟩

def decideItems : (items : List Value) → Decidable (∀ item ∈ items, item.WellKeyed)
  | [] => isTrue (by simp)
  | item :: items =>
    have := decideWellKeyed item
    have := decideItems items
    decidable_of_iff (item.WellKeyed ∧ ∀ other ∈ items, other.WellKeyed) (by simp)

def decideMembers : (members : List (String × Value)) →
    Decidable (∀ member ∈ members, member.2.WellKeyed)
  | [] => isTrue (by simp)
  | (key, value) :: members =>
    have := decideWellKeyed value
    have := decideMembers members
    decidable_of_iff (value.WellKeyed ∧ ∀ other ∈ members, other.2.WellKeyed) (by simp)

end

instance (value : Value) : Decidable value.WellKeyed :=
  decideWellKeyed value

/-- A value with distinct keys equals itself. -/
theorem WellKeyed.same_self {value : Value} (wellKeyed : value.WellKeyed) :
    value.same value = true := by
  induction wellKeyed with
  | null => rfl
  | bool | string => simp [same]
  | number value => exact value.same_refl
  | array _ ih => exact sameItems_self ih
  | @object members distinct _ ih =>
      have covered : sameMembers members members = true := by
        apply sameMembers_of_get?
        intro member inside
        exact ⟨Entries.get?_of_mem distinct inside, ih member inside⟩
      simp [same, covered]

/-- Putting well-keyed values one after the other gives distinct keys at every depth. -/
theorem wellKeyed_foldl_put {pairs : List (String × Value)} {members : Members}
    (wellKeyed : (object members).WellKeyed) (each : ∀ pair ∈ pairs, pair.2.WellKeyed) :
    (object (pairs.foldl (fun entries pair => Entries.put pair.1 pair.2 entries)
      members)).WellKeyed := by
  induction pairs generalizing members with
  | nil => exact wellKeyed
  | cons pair pairs ih =>
      refine ih (.object (Entries.nodup_keys_put wellKeyed.distinct pair.2) ?_)
        fun other member => each other (by simp [member])
      rintro ⟨key, value⟩ member
      have found := Entries.get?_of_mem
        (Entries.nodup_keys_put wellKeyed.distinct pair.2) member
      rw [Entries.get?_put] at found
      split at found
      · cases found
        exact each pair (by simp)
      · exact wellKeyed.member found

theorem wellKeyed_update {members : Members} (wellKeyed : (object members).WellKeyed)
    {change : Value → Value} (kept : ∀ value, value.WellKeyed → (change value).WellKeyed)
    (key : String) : (object (Entries.update key change members)).WellKeyed := by
  have distinct : (Entries.keys (Entries.update key change members)).Nodup := by
    rw [Entries.keys_update]
    exact wellKeyed.distinct
  refine .object distinct ?_
  rintro ⟨other, value⟩ inside
  have found := Entries.get?_of_mem distinct inside
  rw [Entries.get?_update] at found
  split at found
  · obtain ⟨old, foundOld, rfl⟩ := Option.map_eq_some_iff.mp found
    exact kept old (wellKeyed.member foundOld)
  · exact wellKeyed.member found

theorem wellKeyed_append {members : Members} (wellKeyed : (object members).WellKeyed)
    {key : String} (absent : key ∉ Entries.keys members) {value : Value}
    (valueKeyed : value.WellKeyed) : (object (members ++ [(key, value)])).WellKeyed := by
  rw [← Entries.put_of_not_mem absent]
  have each : ∀ pair ∈ [(key, value)], pair.2.WellKeyed := by
    simpa using valueKeyed
  exact wellKeyed_foldl_put wellKeyed each

end Value

end ApiAssembly
