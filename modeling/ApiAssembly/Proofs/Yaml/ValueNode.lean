import ApiAssembly.Proofs.Value.Extent
import ApiAssembly.Proofs.Yaml.ValueTree
import ApiAssembly.Yaml.Read

/-!
# Nodes of written values

The tree of a value becomes a node of the same shape, in which scalars have their types, and
the node denotes the value.  A key for merging is the only one that does not stay as it is.
-/

namespace ApiAssembly.Yaml

mutual

/-- The node of a value. -/
def valueNode : Value → Node
  | .null => .null
  | .bool value => .bool value
  | .number value => .number value
  | .string text => .string text
  | .array items => .sequence (itemNodes items)
  | .object members => .mapping (memberNodes members)

def itemNodes : List Value → List Node
  | [] => []
  | item :: items => valueNode item :: itemNodes items

def memberNodes : List (String × Value) → List (Node × Node)
  | [] => []
  | (key, value) :: members => (.string key, valueNode value) :: memberNodes members

end

theorem itemNodes_eq_map (items : List Value) : itemNodes items = items.map valueNode := by
  induction items with
  | nil => rfl
  | cons item items ih => rw [itemNodes, ih, List.map_cons]

theorem memberNodes_eq_map (members : Members) :
    memberNodes members = members.map fun member => (.string member.1, valueNode member.2) := by
  induction members with
  | nil => rfl
  | cons member members ih => rw [memberNodes, ih, List.map_cons]

section Scalars

variable {aliases : Aliases} {levels : Nat}

/-- A text has its type back, in whatever style it is written. -/
theorem scalarNode?_text (text : String) :
    scalarNode? none (styleOf text = .plain) text = some (.string text) := by
  by_cases plain : styleOf text = .plain
  · simp [scalarNode?, plain, plainNode?, (isPlainText_of_styleOf plain).2]
  · simp [scalarNode?, plain]

theorem scalarNode?_number {value : Number} (fits : value.Fits) :
    scalarNode? none true (String.ofList (writeNumber value)) = some (.number value) := by
  cases value with
  | whole value =>
      have text := plainOf_intDigits fits.1 fits.2
      simp [scalarNode?, plainNode?, writeNumber, text]
  | float value =>
      have finite : value.isFinite = true := fits
      have text := plainOf_finite numberLayout finite
      simp [scalarNode?, plainNode?, writeNumber, finite, text]

/-- A scalar is no collection, so it may stand at the limit of nesting. -/
theorem node_scalar {plain : Bool} {text : String} {node : Node}
    (found : scalarNode? none plain text = some node) :
    aliases.node levels false (.scalar {} plain text) = pure node := by
  have lifted : (StateT.lift (some node) : Counting Node) = pure node := rfl
  cases levels with
  | zero =>
      simp [Aliases.node, Aliases.target, Tree.isCollection, labelledNode, ownTag?, Tree.label,
        contentNode, found, lifted]
  | succ levels =>
      simp [Aliases.node, Aliases.target, labelledNode, ownTag?, Tree.label, contentNode, found,
        lifted]

end Scalars

section Collections

variable {aliases : Aliases} {levels : Nat}

theorem node_sequence {trees : List (Tree Nat)} {nodes : List Node}
    (items : trees.mapM (aliases.node levels false) = pure nodes) :
    aliases.node (levels + 1) false (.sequence {} trees) = pure (.sequence nodes) := by
  simp [Aliases.node, Aliases.target, labelledNode, ownTag?, Tree.label, contentNode, items]

/-- Add an entry of a mapping's tree to the entries in front of it. -/
def addEntryTree? (aliases : Aliases) (levels : Nat) (present : List (Node × Node))
    (entry : Tree Nat × Tree Nat) : Counting (List (Node × Node)) := do
  addEntry present (← aliases.node levels false entry.1) (aliases.node levels false entry.2)

theorem node_mapping {trees : List (Tree Nat × Tree Nat)} {entries : List (Node × Node)}
    (added : trees.foldlM (addEntryTree? aliases levels) [] = pure entries) :
    aliases.node (levels + 1) false (.mapping {} trees) = pure (.mapping entries) := by
  have same : (fun present (entry : Tree Nat × Tree Nat) => do
      addEntry present (← aliases.node levels false entry.1)
        (aliases.node levels false entry.2)) = addEntryTree? aliases levels := rfl
  simp [Aliases.node, Aliases.target, labelledNode, ownTag?, Tree.label, contentNode, same, added]

theorem memberNodes_append (front back : Members) :
    memberNodes (front ++ back) = memberNodes front ++ memberNodes back := by
  induction front with
  | nil => rfl
  | cons member front ih =>
      rw [List.cons_append, memberNodes, memberNodes, ih]
      rfl

theorem hasKey_memberNodes {members : Members} {key : String}
    (absent : key ∉ Entries.keys members) :
    Node.hasKey (memberNodes members) (.string key) = false := by
  induction members with
  | nil => rfl
  | cons member members ih =>
      rw [Entries.keys_cons, List.mem_cons, not_or] at absent
      have later := ih absent.2
      simp only [Node.hasKey] at later
      simp [Node.hasKey, memberNodes, Node.same, absent.1, later]

theorem addEntryTree?_eq {members : Members} {key : String} {value : Value}
    (absent : key ∉ Entries.keys members)
    (node : aliases.node levels false (valueTree value) = pure (valueNode value)) :
    addEntryTree? aliases levels (memberNodes members) (textTree key, valueTree value) =
      pure (memberNodes (members ++ [(key, value)])) := by
  have own : aliases.node levels false (textTree key) = pure (.string key) :=
    node_scalar (scalarNode?_text key)
  rw [addEntryTree?, own, node, memberNodes_append]
  simp [addEntry, hasKey_memberNodes absent, memberNodes]

mutual

/-- The node of a value's tree, unless the value is nested too deep. -/
theorem node_valueTree (value : Value) {levels : Nat} (within : value.depth ≤ levels)
    (wellKeyed : value.WellKeyed) (fit : value.NumbersFit) :
    aliases.node levels false (valueTree value) = pure (valueNode value) :=
  match value with
  | .null => node_scalar rfl
  | .bool true => node_scalar rfl
  | .bool false => node_scalar rfl
  | .number _ => node_scalar (scalarNode?_number fit.fits)
  | .string text => node_scalar (scalarNode?_text text)
  | .array items => by
      obtain ⟨levels, rfl⟩ := Nat.exists_eq_add_of_le' (Nat.le_of_add_left_le within)
      exact node_sequence (mapM_itemTrees items (Nat.le_of_succ_le_succ within)
        (fun _ member => wellKeyed.item member) fun _ member => fit.item member)
  | .object members => by
      obtain ⟨levels, rfl⟩ := Nat.exists_eq_add_of_le' (Nat.le_of_add_left_le within)
      exact node_mapping (@foldlM_memberTrees members levels [] (Nat.le_of_succ_le_succ within)
        wellKeyed.distinct (fun _ member => wellKeyed.each member)
        fun _ member => fit.member member)

theorem mapM_itemTrees (items : List Value) {levels : Nat}
    (within : Value.itemsDepth items ≤ levels) (wellKeyed : ∀ item ∈ items, item.WellKeyed)
    (fit : ∀ item ∈ items, item.NumbersFit) :
    (itemTrees items).mapM (aliases.node levels false) = pure (itemNodes items) :=
  match items with
  | [] => by simp [itemTrees, itemNodes]
  | item :: items => by
      obtain ⟨firstWithin, laterWithin⟩ := Nat.max_le.mp within
      rw [List.forall_mem_cons] at wellKeyed fit
      have first := node_valueTree item firstWithin wellKeyed.1 fit.1
      have later := mapM_itemTrees items laterWithin wellKeyed.2 fit.2
      simp [itemTrees, itemNodes, first, later]

theorem foldlM_memberTrees (members : List (String × Value)) {levels : Nat} {before : Members}
    (within : Value.membersDepth members ≤ levels)
    (distinct : (Entries.keys (before ++ members)).Nodup)
    (wellKeyed : ∀ member ∈ members, member.2.WellKeyed)
    (fit : ∀ member ∈ members, member.2.NumbersFit) :
    (memberTrees members).foldlM (addEntryTree? aliases levels) (memberNodes before) =
      pure (memberNodes (before ++ members)) :=
  match members with
  | [] => by simp [memberTrees]
  | (key, value) :: members => by
      obtain ⟨firstWithin, laterWithin⟩ := Nat.max_le.mp within
      rw [List.forall_mem_cons] at wellKeyed fit
      have first := node_valueTree value firstWithin wellKeyed.1 fit.1
      have absent : key ∉ Entries.keys before := by
        rw [Entries.keys_append, Entries.keys_cons] at distinct
        exact fun member =>
          (List.nodup_append.mp distinct).2.2 _ member _ List.mem_cons_self rfl
      have distinctLater : (Entries.keys ((before ++ [(key, value)]) ++ members)).Nodup := by
        simpa using distinct
      have later := foldlM_memberTrees members laterWithin distinctLater wellKeyed.2 fit.2
      rw [memberTrees, List.foldlM_cons, addEntryTree?_eq absent first, pure_bind, later,
        List.append_assoc]
      rfl

end

end Collections

section Anchors

mutual

/-- There are no anchors to number. -/
theorem numberAnchors?_valueTree (value : Value) (anchors : Anchors) :
    numberAnchors? anchors (valueTree value) = some (valueTree value, anchors) :=
  match value with
  | .null => rfl
  | .bool true => rfl
  | .bool false => rfl
  | .number _ => rfl
  | .string _ => rfl
  | .array items => by
      simp [valueTree, numberAnchors?, numberAnchor, numberItems?_itemTrees items anchors]
  | .object members => by
      simp [valueTree, numberAnchors?, numberAnchor, numberEntries?_memberTrees members anchors]

theorem numberItems?_itemTrees (items : List Value) (anchors : Anchors) :
    numberItems? anchors (itemTrees items) = some (itemTrees items, anchors) :=
  match items with
  | [] => rfl
  | item :: items => by
      simp [itemTrees, numberItems?, numberAnchors?_valueTree item anchors,
        numberItems?_itemTrees items anchors]

theorem numberEntries?_memberTrees (members : List (String × Value)) (anchors : Anchors) :
    numberEntries? anchors (memberTrees members) = some (memberTrees members, anchors) :=
  match members with
  | [] => rfl
  | (key, value) :: members => by
      simp [memberTrees, numberEntries?, textTree, numberAnchors?, numberAnchor,
        numberAnchors?_valueTree value anchors, numberEntries?_memberTrees members anchors]

end

/-- The tree of a value becomes its node. -/
theorem toNode?_valueTree {value : Value} (within : value.depth ≤ nestingLimit)
    (wellKeyed : value.WellKeyed) (fit : value.NumbersFit) :
    (valueTree value).toNode? = some (valueNode value) := by
  have node (aliases : Aliases) := @node_valueTree aliases value _ within wellKeyed fit
  simp [Tree.toNode?, numberAnchors?_valueTree, node]

end Anchors

section Merging

/-- The key whose entry stands for the entries of other mappings. -/
def mergeKey : String := "<<"

theorem swapRemove?_memberNodes {members : Members} (absent : mergeKey ∉ Entries.keys members) :
    Node.swapRemove? (fun entry => entry.1.isMergeKey) (memberNodes members) = none := by
  induction members with
  | nil => rfl
  | cons member members ih =>
      rw [Entries.keys_cons, List.mem_cons, not_or] at absent
      have noMerge : (Node.string member.1).isMergeKey = false :=
        decide_eq_false fun same => absent.1 same.symm
      simp [memberNodes, Node.swapRemove?, noMerge, ih absent.2]

theorem mergedEntries?_memberNodes {members : Members} (absent : mergeKey ∉ Entries.keys members) :
    Node.mergedEntries? (memberNodes members) = some (memberNodes members) := by
  rw [Node.mergedEntries?, swapRemove?_memberNodes absent]

theorem not_mem_keys_of_mention {key : String} {members : Members}
    (absent : Value.membersMention key members = false) : key ∉ Entries.keys members := by
  induction members with
  | nil => simp
  | cons member members ih =>
      simp only [Value.membersMention, Bool.or_eq_false_iff, decide_eq_false_iff_not] at absent
      rw [Entries.keys_cons, List.mem_cons, not_or]
      exact ⟨fun same => absent.1.1 same.symm, ih absent.2⟩

/-- Replace the keys for merging in the value of an entry. -/
def replaceInValue? (depth : Nat) (entry : Node × Node) : Option (Node × Node) := do
  return (entry.1, ← Node.replaceMergeKeys? depth entry.2)

theorem replaceMergeKeys?_mapping (depth : Nat) (entries : List (Node × Node)) :
    Node.replaceMergeKeys? (depth + 1) (.mapping entries) =
      ((Node.mergedEntries? entries).bind fun merged => merged.mapM (replaceInValue? depth)).map
        Node.mapping := by
  rw [Node.replaceMergeKeys?]
  cases Node.mergedEntries? entries with
  | none => rfl
  | some merged =>
      change (merged.mapM (replaceInValue? depth)).bind _ =
        Option.map _ (Option.bind (some merged) _)
      rw [Option.bind_some]
      cases merged.mapM (replaceInValue? depth) <;> rfl

theorem replaceMergeKeys?_sequence (depth : Nat) (items : List Node) :
    Node.replaceMergeKeys? (depth + 1) (.sequence items) =
      (items.mapM (Node.replaceMergeKeys? depth)).map Node.sequence := by
  rw [Node.replaceMergeKeys?]
  cases items.mapM (Node.replaceMergeKeys? depth) <;> rfl

mutual

/-- Without keys for merging a node stays as it is. -/
theorem replaceMergeKeys?_valueNode (value : Value) (depth : Nat)
    (absent : value.mentions mergeKey = false) :
    (valueNode value).replaceMergeKeys? depth = some (valueNode value) :=
  match depth, value with
  | 0, _ => rfl
  | _ + 1, .null => rfl
  | _ + 1, .bool _ => rfl
  | _ + 1, .number _ => rfl
  | _ + 1, .string _ => rfl
  | depth + 1, .array items => by
      rw [valueNode, replaceMergeKeys?_sequence, mapM_itemNodes items depth absent, Option.map_some]
  | depth + 1, .object members => by
      have own := mergedEntries?_memberNodes (not_mem_keys_of_mention absent)
      rw [valueNode, replaceMergeKeys?_mapping, own, Option.bind_some,
        mapM_memberNodes members depth absent, Option.map_some]

theorem mapM_itemNodes (items : List Value) (depth : Nat)
    (absent : Value.itemsMention mergeKey items = false) :
    (itemNodes items).mapM (Node.replaceMergeKeys? depth) = some (itemNodes items) :=
  match items with
  | [] => rfl
  | item :: items => by
      rw [Value.itemsMention, Bool.or_eq_false_iff] at absent
      simp [itemNodes, replaceMergeKeys?_valueNode item depth absent.1,
        mapM_itemNodes items depth absent.2]

theorem mapM_memberNodes (members : List (String × Value)) (depth : Nat)
    (absent : Value.membersMention mergeKey members = false) :
    (memberNodes members).mapM (replaceInValue? depth) = some (memberNodes members) :=
  match members with
  | [] => rfl
  | (key, value) :: members => by
      rw [Value.membersMention, Bool.or_eq_false_iff, Bool.or_eq_false_iff] at absent
      have first : replaceInValue? depth (.string key, valueNode value) =
          some (.string key, valueNode value) := by
        simp [replaceInValue?, replaceMergeKeys?_valueNode value depth absent.1.2]
      simp [memberNodes, first, mapM_memberNodes members depth absent.2]

end

end Merging

section Values

theorem numberValue_eq {value : Number} (fits : value.Fits) :
    Node.numberValue value = .number value := by
  cases value with
  | whole value => rfl
  | float value =>
      have finite : value.isFinite = true := fits
      rw [Node.numberValue, if_pos finite]

mutual

/-- The node of a value denotes the value. -/
theorem toValue_valueNode (value : Value) (wellKeyed : value.WellKeyed) (fit : value.NumbersFit) :
    (valueNode value).toValue = value :=
  match value with
  | .null => rfl
  | .bool _ => rfl
  | .string _ => rfl
  | .number _ => numberValue_eq fit.fits
  | .array items => by
      rw [valueNode, Node.toValue, itemValues_itemNodes items
        (fun _ member => wellKeyed.item member) fun _ member => fit.item member]
  | .object members => by
      rw [valueNode, Node.toValue, entryMembers_memberNodes members
        (fun _ member => wellKeyed.each member) fun _ member => fit.member member,
        Entries.ofPairs_of_nodup wellKeyed.distinct]

theorem itemValues_itemNodes (items : List Value) (wellKeyed : ∀ item ∈ items, item.WellKeyed)
    (fit : ∀ item ∈ items, item.NumbersFit) : Node.itemValues (itemNodes items) = items :=
  match items with
  | [] => rfl
  | item :: items => by
      rw [List.forall_mem_cons] at wellKeyed fit
      rw [itemNodes, Node.itemValues, toValue_valueNode item wellKeyed.1 fit.1,
        itemValues_itemNodes items wellKeyed.2 fit.2]

theorem entryMembers_memberNodes (members : List (String × Value))
    (wellKeyed : ∀ member ∈ members, member.2.WellKeyed)
    (fit : ∀ member ∈ members, member.2.NumbersFit) :
    Node.entryMembers (memberNodes members) = members :=
  match members with
  | [] => rfl
  | (key, value) :: members => by
      rw [List.forall_mem_cons] at wellKeyed fit
      rw [memberNodes, Node.entryMembers, toValue_valueNode value wellKeyed.1 fit.1,
        entryMembers_memberNodes members wellKeyed.2 fit.2]
      rfl

end

end Values

end ApiAssembly.Yaml
