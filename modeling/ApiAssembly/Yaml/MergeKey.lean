import ApiAssembly.Yaml.Node

/-!
# Merge keys

The entry `<<` of a mapping holds a mapping, or a sequence of mappings, whose entries
the mapping takes over where it has none of the same key.  The last entry of the mapping
moves to where the entry stood, and the entries taken over follow at the end.
-/

namespace ApiAssembly.Yaml

namespace Node

def isMergeKey : Node → Bool
  | .string text => text = "<<"
  | _ => false

/-- Take out the first entry that satisfies a condition; the last entry moves to its
place. -/
def swapRemove? (condition : Node × Node → Bool) :
    List (Node × Node) → Option (Node × List (Node × Node))
  | [] => none
  | entry :: rest =>
    if condition entry then
      match rest.getLast? with
      | some last => some (entry.2, last :: rest.dropLast)
      | none => some (entry.2, [])
    else (swapRemove? condition rest).map fun (value, left) => (value, entry :: left)

/-- The entries followed by those of another mapping whose keys are not there yet. -/
def takeOver (entries others : List (Node × Node)) : List (Node × Node) :=
  others.foldl
    (fun taken other => if hasKey taken other.1 then taken else taken ++ [other]) entries

/-- The mappings whose entries a merge key stands for. -/
def mergedMappings? : Node → Option (List (List (Node × Node)))
  | .mapping entries => some [entries]
  | .sequence items => items.mapM fun item =>
    match item with
    | .mapping entries => some entries
    | _ => none
  | _ => none

/-- The entries of a mapping with its merge key replaced, if it has one. -/
def mergedEntries? (entries : List (Node × Node)) : Option (List (Node × Node)) :=
  match swapRemove? (fun entry => entry.1.isMergeKey) entries with
  | none => some entries
  | some (value, left) => (mergedMappings? value).map fun mappings => mappings.foldl takeOver left

/-- Replace the merge keys of a node down to a depth.  What a mapping takes over is not
searched again for a merge key of the mapping itself. -/
def replaceMergeKeys? : Nat → Node → Option Node
  | 0, node => some node
  | depth + 1, node =>
    match node with
    | .mapping entries => do
      let merged ← mergedEntries? entries
      return .mapping (← merged.mapM fun entry => do
        return (entry.1, ← replaceMergeKeys? depth entry.2))
    | .sequence items => return .sequence (← items.mapM (replaceMergeKeys? depth))
    | .tagged tag content => return .tagged tag (← replaceMergeKeys? depth content)
    | other => some other

end Node

end ApiAssembly.Yaml
