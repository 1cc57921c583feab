import ApiAssembly.Yaml.Alias
import ApiAssembly.Yaml.MergeKey

/-!
# Reading YAML

The value of a text that is one YAML document or none.  Taking entries over raises no
part of a node to a greater depth, so the node's own depth bounds the search for merge
keys.
-/

namespace ApiAssembly.Yaml

/-- The node of a text, with merge keys replaced; a text without a document is null. -/
def readNode (text : String) : Option Node := do
  let tokens ← tokens? text.toList
  match ← readDocument? tokens with
  | none => return .null
  | some tree =>
    let node ← tree.toNode?
    node.replaceMergeKeys? (node.depth + 1)

/-- The value of a text, if it is in order. -/
def read? (text : String) : Option Value :=
  (readNode text).map Node.toValue

end ApiAssembly.Yaml
