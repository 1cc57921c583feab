import ApiAssembly.Proofs.Value.WellKeyed
import ApiAssembly.Yaml.Read

/-!
# Distinct keys in what is read from YAML

Of entries whose keys become the same text one member is left, so the value of a YAML
text has distinct keys at every depth.
-/

namespace ApiAssembly.Yaml

open Node

mutual

theorem wellKeyed_toValue (node : Node) : node.toValue.WellKeyed :=
  match node with
  | .null => .null
  | .bool value => .bool value
  | .number (.whole value) => .number _
  | .number (.float value) => by
      rw [toValue, numberValue]
      split
      · exact .number _
      · exact .null
  | .string text => .string text
  | .sequence items => .array (wellKeyed_itemValues items)
  | .mapping entries => by
      rw [toValue, Entries.ofPairs]
      exact Value.wellKeyed_foldl_put (.object List.nodup_nil (by simp))
        (wellKeyed_entryMembers entries)
  | .tagged _ content => by
      rw [toValue]
      exact wellKeyed_toValue content

theorem wellKeyed_itemValues (items : List Node) :
    ∀ value ∈ itemValues items, value.WellKeyed :=
  match items with
  | [] => by simp [itemValues]
  | item :: items => by
      intro value member
      rw [itemValues, List.mem_cons] at member
      rcases member with rfl | later
      · exact wellKeyed_toValue item
      · exact wellKeyed_itemValues items value later

theorem wellKeyed_entryMembers (entries : List (Node × Node)) :
    ∀ member ∈ entryMembers entries, member.2.WellKeyed :=
  match entries with
  | [] => by simp [entryMembers]
  | (key, value) :: entries => by
      intro member inside
      rw [entryMembers, List.mem_cons] at inside
      rcases inside with rfl | later
      · exact wellKeyed_toValue value
      · exact wellKeyed_entryMembers entries member later

end

/-- What a YAML text describes has distinct keys. -/
theorem wellKeyed_of_read? {text : String} {value : Value} (found : read? text = some value) :
    value.WellKeyed := by
  obtain ⟨node, -, rfl⟩ := Option.map_eq_some_iff.mp found
  exact wellKeyed_toValue node

end ApiAssembly.Yaml
