import ApiAssembly.Yaml.Node
import ApiAssembly.Yaml.Tree

/-!
# From trees to nodes

Anchors get numbers, aliases are replaced by what their anchors stand for, and scalars
get their types.  How deep a document is nested and how often aliases are replaced is
limited, so that a document that contains itself is refused.
-/

namespace ApiAssembly.Yaml

/-- The anchors met so far, with their numbers. -/
abbrev Anchors := Entries Nat

/-- Give an anchor the number of different names met before it.  An anchor that is defined
again has its number anew, and the next new name gets that number too. -/
def numberAnchor (anchors : Anchors) (label : Label String) : Label Nat × Anchors :=
  match label.anchor with
  | none => (⟨none, label.tag⟩, anchors)
  | some name =>
    let number := anchors.length
    (⟨some number, label.tag⟩, Entries.put name number anchors)

mutual

/-- Number the anchors of a tree in the order of the text.  An alias must mean an anchor in
front of it. -/
def numberAnchors? (anchors : Anchors) : Tree String → Option (Tree Nat × Anchors)
  | .alias target => (Entries.get? target anchors).map fun number => (.alias number, anchors)
  | .scalar label plain text =>
    let (label, anchors) := numberAnchor anchors label
    some (.scalar label plain text, anchors)
  | .sequence label items => do
    let (label, anchors) := numberAnchor anchors label
    let (items, anchors) ← numberItems? anchors items
    return (.sequence label items, anchors)
  | .mapping label entries => do
    let (label, anchors) := numberAnchor anchors label
    let (entries, anchors) ← numberEntries? anchors entries
    return (.mapping label entries, anchors)

def numberItems? (anchors : Anchors) :
    List (Tree String) → Option (List (Tree Nat) × Anchors)
  | [] => some ([], anchors)
  | item :: rest => do
    let (item, anchors) ← numberAnchors? anchors item
    let (rest, anchors) ← numberItems? anchors rest
    return (item :: rest, anchors)

def numberEntries? (anchors : Anchors) :
    List (Tree String × Tree String) → Option (List (Tree Nat × Tree Nat) × Anchors)
  | [] => some ([], anchors)
  | (key, value) :: rest => do
    let (key, anchors) ← numberAnchors? anchors key
    let (value, anchors) ← numberAnchors? anchors value
    let (rest, anchors) ← numberEntries? anchors rest
    return ((key, value) :: rest, anchors)

end

/-- The definition that a node with an anchor makes. -/
def definition (label : Label Nat) (tree : Tree Nat) : List (Nat × Tree Nat) :=
  match label.anchor with
  | some number => [(number, tree)]
  | none => []

mutual

/-- The definitions of anchors in a tree, in the order of the text. -/
def definitions : Tree Nat → List (Nat × Tree Nat)
  | .alias _ => []
  | .scalar label plain text => definition label (.scalar label plain text)
  | .sequence label items => definition label (.sequence label items) ++ itemDefinitions items
  | .mapping label entries =>
    definition label (.mapping label entries) ++ entryDefinitions entries

def itemDefinitions : List (Tree Nat) → List (Nat × Tree Nat)
  | [] => []
  | item :: rest => definitions item ++ itemDefinitions rest

def entryDefinitions : List (Tree Nat × Tree Nat) → List (Nat × Tree Nat)
  | [] => []
  | (key, value) :: rest => definitions key ++ definitions value ++ entryDefinitions rest

end

mutual

/-- The size of a tree: one for a scalar or an alias, and one each for the beginning and the
end of anything else. -/
def Tree.size : Tree Nat → Nat
  | .alias _ | .scalar .. => 1
  | .sequence _ items => itemsSize items + 2
  | .mapping _ entries => entriesSize entries + 2

def Tree.itemsSize : List (Tree Nat) → Nat
  | [] => 0
  | item :: rest => item.size + itemsSize rest

def Tree.entriesSize : List (Tree Nat × Tree Nat) → Nat
  | [] => 0
  | (key, value) :: rest => key.size + value.size + entriesSize rest

end

/-- What aliases stand for: the definitions of anchors, of which the last one of a number
counts, and how often aliases may be replaced. -/
structure Aliases where
  definitions : List (Nat × Tree Nat)
  replacements : Nat

abbrev Counting := StateT Nat Option

/-- The tree that an alias stands for, which counts as a replacement. -/
def Aliases.replace (aliases : Aliases) (number : Nat) : Counting (Tree Nat) := do
  let count ← get
  if aliases.replacements ≤ count then failure
  set (count + 1)
  match (aliases.definitions.reverse.find? fun entry => entry.1 = number) with
  | some (_, tree) => return tree
  | none => failure

/-- Add an entry to a mapping, unless its key is there already. -/
def addEntry (entries : List (Node × Node)) (key : Node) (value : Counting Node) :
    Counting (List (Node × Node)) :=
  if Node.hasKey entries key then failure
  else return entries ++ [(key, ← value)]

/-- The node of a tree that is no alias.  The nodes of the parts of sequences and mappings
come from the given function; the keys of a tagged mapping count as tagged. -/
def contentNode (part : Bool → Tree Nat → Counting Node) (tagged : Bool) :
    Tree Nat → Counting Node
  | .alias _ => failure
  | .scalar label plain text =>
    StateT.lift (scalarNode? (if tagged then none else label.tag) plain text)
  | .sequence _ items => return .sequence (← items.mapM (part false))
  | .mapping _ entries =>
    return .mapping (← entries.foldlM
      (fun present entry => do
        addEntry present (← part tagged entry.1) (part false entry.2)) [])

def Tree.label : Tree Nat → Label Nat
  | .alias _ => {}
  | .scalar label _ _ | .sequence label _ | .mapping label _ => label

def Tree.isCollection : Tree Nat → Bool
  | .sequence .. | .mapping .. => true
  | _ => false

/-- The tree itself, or what it stands for, which does not count as tagged. -/
def Aliases.target (aliases : Aliases) (tagged : Bool) :
    Tree Nat → Counting (Bool × Tree Nat)
  | .alias number => return (false, ← aliases.replace number)
  | tree => return (tagged, tree)

/-- The node of a tree with its own tag, unless the tree counts as tagged. -/
def labelledNode (part : Bool → Tree Nat → Counting Node) (tagged : Bool) (tree : Tree Nat) :
    Counting Node :=
  match if tagged then none else ownTag? tree.label.tag with
  | some tag => return .tagged tag (← contentNode part true tree)
  | none => contentNode part tagged tree

/-- The node of a tree whose collections are nested at most the given number of levels.  A
tree that counts as tagged loses its tag. -/
def Aliases.node (aliases : Aliases) : Nat → Bool → Tree Nat → Counting Node
  | 0, tagged, tree => do
    let (tagged, tree) ← aliases.target tagged tree
    if tree.isCollection then failure
    labelledNode (fun _ _ => failure) tagged tree
  | levels + 1, tagged, tree => do
    let (tagged, tree) ← aliases.target tagged tree
    labelledNode (aliases.node levels) tagged tree

/-- The levels of nesting that a document may have. -/
def nestingLimit : Nat := 127

/-- The node of a document's tree.  Aliases may be replaced a hundred times as often as the
tree is large. -/
def Tree.toNode? (tree : Tree String) : Option Node := do
  let (numbered, _) ← numberAnchors? [] tree
  let aliases : Aliases := ⟨definitions numbered, 100 * numbered.size⟩
  let (node, _) ← (aliases.node nestingLimit false numbered).run 0
  return node

end ApiAssembly.Yaml
