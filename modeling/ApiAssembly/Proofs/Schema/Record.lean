import ApiAssembly.Proofs.Typedef.Tree
import Mathlib.Data.List.Induction

/-!
# Records

Of the entries of a record with the same key the last one counts, in the place of the first.
The entries that count are known before the conversion, and the properties of the record's
schema correspond to them one by one.
-/

namespace ApiAssembly

namespace Entries

variable {α β : Type} {related : α → β → Prop}

/-- Entries are settled by putting them one after the other. -/
theorem settled_eq_putAll (settings : Entries α) : settled settings = putAll settings [] := by
  induction settings using List.reverseRecOn with
  | nil => rfl
  | append_singleton settings setting ih =>
      rw [settled_concat, ih, putAll_append]
      rfl

theorem settled_of_nodup {settings : Entries α} (distinct : (keys settings).Nodup) :
    settled settings = settings := by
  rw [settled_eq_putAll]
  exact ofPairs_of_nodup distinct

/-- Entries with the same keys in the same order, whose values are related. -/
def Corresponding (related : α → β → Prop) : Entries α → Entries β → Prop :=
  List.Forall₂ fun one other => one.1 = other.1 ∧ related one.2 other.2

theorem Corresponding.put {left : Entries α} {right : Entries β}
    (corresponding : Corresponding related left right) (key : String) {value : α} {other : β}
    (same : related value other) :
    Corresponding related (put key value left) (put key other right) := by
  induction corresponding with
  | nil => exact .cons ⟨rfl, same⟩ .nil
  | @cons one other left right first rest ih =>
      obtain ⟨oneKey, oneValue⟩ := one
      obtain ⟨otherKey, otherValue⟩ := other
      obtain ⟨rfl, relatedValues⟩ := first
      rw [Entries.put, Entries.put]
      split
      · exact .cons ⟨rfl, same⟩ rest
      · exact .cons ⟨rfl, relatedValues⟩ ih

theorem Corresponding.putAll {pairs : Entries α} {values : List β} {left : Entries α}
    {right : Entries β} (each : List.Forall₂ related (Entries.values pairs) values)
    (corresponding : Corresponding related left right) :
    Corresponding related (putAll pairs left) (putAll ((keys pairs).zip values) right) := by
  induction pairs generalizing values left right with
  | nil => exact corresponding
  | cons pair pairs ih =>
      obtain ⟨value, others, first, rest, rfl⟩ := List.forall₂_cons_left_iff.mp each
      exact ih rest (corresponding.put pair.1 first)

/-- The values of entries that are put one after the other correspond to the entries that
count. -/
theorem corresponding_settled {pairs : Entries α} {results : List β}
    (each : List.Forall₂ related (values pairs) results) :
    Corresponding related (settled pairs) (putAll ((keys pairs).zip results) []) := by
  rw [settled_eq_putAll]
  exact Corresponding.putAll each .nil

theorem Corresponding.keys {left : Entries α} {right : Entries β}
    (corresponding : Corresponding related left right) : keys left = keys right := by
  induction corresponding with
  | nil => rfl
  | cons first _ ih => rw [keys_cons, keys_cons, first.1, ih]

theorem Corresponding.values {left : Entries α} {right : Entries β}
    (corresponding : Corresponding related left right) :
    List.Forall₂ related (values left) (values right) :=
  List.forall₂_map_left_iff.mpr
    (List.forall₂_map_right_iff.mpr (corresponding.imp fun _ _ both => both.2))

end Entries

end ApiAssembly
