import ApiAssembly.Json.Writer
import ApiAssembly.Value.Equality
import ApiAssembly.Yaml.Plain

/-!
# Nodes

The values that a YAML document denotes, once its scalars have types and its aliases are
replaced.  Keys of mappings are nodes of any kind; a node may have a tag of its own.
-/

namespace ApiAssembly.Yaml

open Decimal (Binary64)

inductive Node where
  | null
  | bool (value : Bool)
  | number (value : Number)
  | string (text : String)
  | sequence (items : List Node)
  | mapping (entries : List (Node × Node))
  | tagged (tag : String) (content : Node)

namespace Node

instance : Inhabited Node := ⟨.null⟩

mutual

/-- Equality of nodes, up to the order of the entries of mappings. -/
def same : Node → Node → Bool
  | .null, .null => true
  | .bool left, .bool right => left = right
  | .number left, .number right => left.same right
  | .string left, .string right => left = right
  | .sequence left, .sequence right => sameItems left right
  | .mapping left, .mapping right => left.length = right.length && sameEntries left right
  | .tagged tag left, .tagged other right => tag = other && same left right
  | _, _ => false

def sameItems : List Node → List Node → Bool
  | [], [] => true
  | left :: lefts, right :: rights => same left right && sameItems lefts rights
  | _, _ => false

/-- Whether each of the entries on the left is on the right with the same value. -/
def sameEntries : List (Node × Node) → List (Node × Node) → Bool
  | [], _ => true
  | (key, value) :: rest, rights =>
    rights.any (fun right => same key right.1 && same value right.2) && sameEntries rest rights

end

def hasKey (entries : List (Node × Node)) (key : Node) : Bool :=
  entries.any fun entry => key.same entry.1

mutual

/-- How deep sequences, mappings and tags are nested in a node. -/
def depth : Node → Nat
  | .sequence items => itemsDepth items + 1
  | .mapping entries => entriesDepth entries + 1
  | .tagged _ content => depth content + 1
  | _ => 0

def itemsDepth : List Node → Nat
  | [] => 0
  | item :: rest => max (depth item) (itemsDepth rest)

def entriesDepth : List (Node × Node) → Nat
  | [] => 0
  | (_, value) :: rest => max (depth value) (entriesDepth rest)

end

/-- The text of a key: its own if it is a string, and its JSON text otherwise. -/
def keyText : Value → String
  | .string text => text
  | other => Json.compact other

def numberValue : Number → Value
  | .whole value => .number (.whole value)
  | .float value => if value.isFinite then .number (.float value) else .null

mutual

/-- A node as a value.  Tags are dropped and keys become texts; of entries whose keys become
the same text, the last value stands in the first place. -/
def toValue : Node → Value
  | .null => .null
  | .bool value => .bool value
  | .number value => numberValue value
  | .string text => .string text
  | .sequence items => .array (itemValues items)
  | .mapping entries => .object (Entries.ofPairs (entryMembers entries))
  | .tagged _ content => toValue content

def itemValues : List Node → List Value
  | [] => []
  | item :: rest => toValue item :: itemValues rest

def entryMembers : List (Node × Node) → List (String × Value)
  | [] => []
  | (key, value) :: rest => (keyText (toValue key), toValue value) :: entryMembers rest

end

end Node

/-- What stands for a number, a boolean or null within a tag's meaning. -/
def coreTag (name : String) : String :=
  "tag:yaml.org,2002:" ++ name

/-- The node of a plain scalar. -/
def plainNode? (text : String) : Option Node :=
  match plainOf text with
  | .null => some .null
  | .bool value => some (.bool value)
  | .whole value => some (.number (.whole value))
  | .excessive => none
  | .float value => some (.number (.float value))
  | .text => some (.string text)

/-- The node of a scalar.  The tags of the core types demand a text of the type, in whatever
way it is written; all other tags make it a string. -/
def scalarNode? (tag : Option String) (plain : Bool) (text : String) : Option Node :=
  match tag with
  | none => if plain then plainNode? text else some (.string text)
  | some tag =>
    if tag = coreTag "bool" then (bool? text).map .bool
    else if tag = coreTag "int" then
      match (whole? text.toList).bind classify with
      | some (.whole value) => some (.number (.whole value))
      | _ => none
    else if tag = coreTag "float" then (float? text).map fun value => .number (.float value)
    else if tag = coreTag "null" then if isNull text then some .null else none
    else some (.string text)

/-- The name of a tag of the document's own, if the tag is one. -/
def ownTag? (tag : Option String) : Option String :=
  match tag.map String.toList with
  | some ['!'] => some "!"
  | some ('!' :: name) => some (String.ofList name)
  | _ => none

end ApiAssembly.Yaml
