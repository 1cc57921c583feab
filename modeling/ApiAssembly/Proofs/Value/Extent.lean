import ApiAssembly.Proofs.Value.WellKeyed

/-!
# The extent of values

What bounds a value: the sizes of its numbers, how deep its arrays and objects are nested, and
the keys that occur in it.
-/

namespace ApiAssembly

open Decimal (Binary64)

/-- A number that texts hold: a whole one of 64 bits with or without sign, or a finite one. -/
def Number.Fits : Number → Prop
  | .whole value => -0x8000000000000000 ≤ value ∧ value ≤ 0xFFFFFFFFFFFFFFFF
  | .float value => value.isFinite = true

instance : DecidablePred Number.Fits
  | .whole value => inferInstanceAs (Decidable (-0x8000000000000000 ≤ value ∧ value ≤ _))
  | .float value => inferInstanceAs (Decidable (value.isFinite = true))

namespace Value

/-- The numbers within the value fit. -/
inductive NumbersFit : Value → Prop
  | null : NumbersFit .null
  | bool (value : Bool) : NumbersFit (.bool value)
  | number {value : Number} (fits : value.Fits) : NumbersFit (.number value)
  | string (text : String) : NumbersFit (.string text)
  | array {items : List Value} (each : ∀ item ∈ items, NumbersFit item) : NumbersFit (.array items)
  | object {members : Members} (each : ∀ member ∈ members, NumbersFit member.2) :
      NumbersFit (.object members)

theorem NumbersFit.fits {value : Number} (fit : (Value.number value).NumbersFit) : value.Fits := by
  cases fit with
  | number fits => exact fits

theorem NumbersFit.item {items : List Value} (fit : (Value.array items).NumbersFit) {item : Value}
    (member : item ∈ items) : item.NumbersFit := by
  cases fit with
  | array each => exact each item member

theorem NumbersFit.member {members : Members} (fit : (Value.object members).NumbersFit)
    {member : String × Value} (inside : member ∈ members) : member.2.NumbersFit := by
  cases fit with
  | object each => exact each member inside

mutual

/-- Whether numbers fit can be decided. -/
def decideNumbersFit : (value : Value) → Decidable value.NumbersFit
  | .null => isTrue .null
  | .bool value => isTrue (.bool value)
  | .number value => decidable_of_iff value.Fits ⟨.number, fun fit => fit.fits⟩
  | .string text => isTrue (.string text)
  | .array items =>
    have := decideItemsFit items
    decidable_of_iff (∀ item ∈ items, item.NumbersFit)
      ⟨.array, fun fit _ member => fit.item member⟩
  | .object members =>
    have := decideMembersFit members
    decidable_of_iff (∀ member ∈ members, member.2.NumbersFit)
      ⟨.object, fun fit _ member => fit.member member⟩

def decideItemsFit : (items : List Value) → Decidable (∀ item ∈ items, item.NumbersFit)
  | [] => isTrue (by simp)
  | item :: items =>
    have := decideNumbersFit item
    have := decideItemsFit items
    decidable_of_iff (item.NumbersFit ∧ ∀ other ∈ items, other.NumbersFit) (by simp)

def decideMembersFit : (members : List (String × Value)) →
    Decidable (∀ member ∈ members, member.2.NumbersFit)
  | [] => isTrue (by simp)
  | (key, value) :: members =>
    have := decideNumbersFit value
    have := decideMembersFit members
    decidable_of_iff (value.NumbersFit ∧ ∀ other ∈ members, other.2.NumbersFit) (by simp)

end

instance (value : Value) : Decidable value.NumbersFit :=
  decideNumbersFit value

/-- A value that texts hold: keys are distinct at every depth, and the numbers fit. -/
structure IsData (value : Value) : Prop where
  wellKeyed : value.WellKeyed
  fit : value.NumbersFit

instance (value : Value) : Decidable value.IsData :=
  decidable_of_iff (value.WellKeyed ∧ value.NumbersFit)
    ⟨fun parts => ⟨parts.1, parts.2⟩, fun data => ⟨data.wellKeyed, data.fit⟩⟩

theorem isData_array {items : List Value} (each : ∀ item ∈ items, item.IsData) :
    (array items).IsData :=
  ⟨.array fun item member => (each item member).wellKeyed,
    .array fun item member => (each item member).fit⟩

mutual

/-- How deep arrays and objects are nested in a value. -/
def depth : Value → Nat
  | .array items => itemsDepth items + 1
  | .object members => membersDepth members + 1
  | _ => 0

def itemsDepth : List Value → Nat
  | [] => 0
  | item :: items => max (depth item) (itemsDepth items)

def membersDepth : List (String × Value) → Nat
  | [] => 0
  | (_, value) :: members => max (depth value) (membersDepth members)

end

mutual

/-- Whether an object within the value, at whatever depth, has a key. -/
def mentions (key : String) : Value → Bool
  | .array items => itemsMention key items
  | .object members => membersMention key members
  | _ => false

def itemsMention (key : String) : List Value → Bool
  | [] => false
  | item :: items => mentions key item || itemsMention key items

def membersMention (key : String) : List (String × Value) → Bool
  | [] => false
  | (own, value) :: members => own = key || mentions key value || membersMention key members

end

end Value

end ApiAssembly
