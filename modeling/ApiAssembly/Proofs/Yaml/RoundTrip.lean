import ApiAssembly.Proofs.Yaml.MergeLoss

/-!
# Reading written YAML

A written mapping is read back as it was, unless a key for merging occurs in it.
-/

namespace ApiAssembly.Yaml

variable {members : Members} (inhabited : members ≠ [])
  (within : (Value.object members).depth ≤ nestingLimit)
  (wellKeyed : (Value.object members).WellKeyed) (fit : (Value.object members).NumbersFit)

include inhabited within wellKeyed fit

theorem readNode_write :
    readNode (write (.object members)) =
      (valueNode (.object members)).replaceMergeKeys?
        ((valueNode (.object members)).depth + 1) := by
  have node := toNode?_valueTree within wellKeyed fit
  simp [readNode, tokens?_write inhabited, readDocument?_inlineTokens inhabited, node]

/-- A written mapping without keys for merging is read back. -/
theorem read?_write (absent : (Value.object members).mentions mergeKey = false) :
    read? (write (.object members)) = some (.object members) := by
  rw [read?, readNode_write inhabited within wellKeyed fit, replaceMergeKeys?_valueNode _ _ absent,
    Option.map_some, toValue_valueNode _ wellKeyed fit]

/-- Something else than a written mapping is read, if anything, when keys for merging occur. -/
theorem read?_write_ne (mentioned : (Value.object members).mentions mergeKey = true) :
    read? (write (.object members)) ≠ some (.object members) := by
  intro same
  rw [read?, readNode_write inhabited within wellKeyed fit] at same
  obtain ⟨replaced, found, same⟩ := Option.map_eq_some_iff.mp same
  exact toValue_replaced_ne (Nat.lt_succ_self _) mentioned found same

end ApiAssembly.Yaml
