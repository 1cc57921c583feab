import ApiAssembly.Proofs.Yaml.Fitting
import ApiAssembly.Proofs.Yaml.ValueNode

/-!
# What merge keys lose

The mapping under a merge key does not survive its replacement, only its entries do.  So a node
gets smaller when a merge key is replaced, wherever it stands, and no later step makes up for
that.  Values are measured in the same way, so a value in which a merge key occurs is not the
value of its own node without merge keys.
-/

namespace ApiAssembly

namespace Value

mutual

/-- The number of values within a value, itself included. -/
def size : Value → Nat
  | .array items => itemsSize items + 1
  | .object members => membersSize members + 1
  | _ => 1

def itemsSize : List Value → Nat
  | [] => 0
  | item :: items => size item + itemsSize items

def membersSize : List (String × Value) → Nat
  | [] => 0
  | (_, value) :: members => size value + membersSize members

end

theorem membersSize_put_le (key : String) (value : Value) (members : Members) :
    membersSize (Entries.put key value members) ≤ membersSize members + value.size := by
  induction members with
  | nil => simp [Entries.put, membersSize]
  | cons member members ih =>
      obtain ⟨present, old⟩ := member
      by_cases here : present = key
      · simp only [Entries.put, here, if_true, membersSize]
        omega
      · simp only [Entries.put, here, if_false, membersSize]
        omega

theorem membersSize_foldl_put_le (pairs : List (String × Value)) (members : Members) :
    membersSize (pairs.foldl (fun entries pair => Entries.put pair.1 pair.2 entries) members) ≤
      membersSize members + membersSize pairs := by
  induction pairs generalizing members with
  | nil => simp [membersSize]
  | cons pair pairs ih =>
      have first := membersSize_put_le pair.1 pair.2 members
      have later := ih (Entries.put pair.1 pair.2 members)
      simp only [List.foldl_cons, membersSize]
      omega

end Value

namespace Yaml

namespace Node

mutual

/-- The number of nodes within a node, itself included and without those of keys. -/
def size : Node → Nat
  | .sequence items => itemsSize items + 1
  | .mapping entries => entriesSize entries + 1
  | .tagged _ content => size content + 1
  | _ => 1

def itemsSize : List Node → Nat
  | [] => 0
  | item :: items => size item + itemsSize items

def entriesSize : List (Node × Node) → Nat
  | [] => 0
  | (_, value) :: entries => size value + entriesSize entries

end

theorem entriesSize_append (front back : List (Node × Node)) :
    entriesSize (front ++ back) = entriesSize front + entriesSize back := by
  induction front with
  | nil => simp [entriesSize]
  | cons entry front ih =>
      simp only [List.cons_append, entriesSize, ih]
      omega

/-- Taking an entry out takes its value away. -/
theorem entriesSize_swapRemove? {condition : Node × Node → Bool} {entries left : List (Node × Node)}
    {value : Node} (found : swapRemove? condition entries = some (value, left)) :
    entriesSize entries = value.size + entriesSize left := by
  induction entries generalizing left with
  | nil => cases found
  | cons entry entries ih =>
      rw [swapRemove?] at found
      split at found
      · cases final : entries.getLast? with
        | none =>
            rw [List.getLast?_eq_none_iff] at final
            subst final
            cases found
            rfl
        | some last =>
            simp only [final, Option.some.injEq, Prod.mk.injEq] at found
            obtain ⟨rfl, rfl⟩ := found
            have whole := List.dropLast_append_getLast? last final
            rw [← whole]
            simp only [List.dropLast_concat, entriesSize, entriesSize_append]
            omega
      · obtain ⟨⟨own, later⟩, removed, same⟩ := Option.map_eq_some_iff.mp found
        cases same
        have inner := ih removed
        simp only [entriesSize, inner]
        omega

theorem entriesSize_takeOver_le (entries others : List (Node × Node)) :
    entriesSize (takeOver entries others) ≤ entriesSize entries + entriesSize others := by
  induction others generalizing entries with
  | nil => simp [takeOver, entriesSize]
  | cons other others ih =>
      rw [takeOver, List.foldl_cons]
      refine (ih _).trans ?_
      split <;> simp only [entriesSize, entriesSize_append] <;> omega

/-- The mappings whose entries are taken over are larger than these entries. -/
theorem entriesSize_foldl_takeOver_le (entries : List (Node × Node))
    (mappings : List (List (Node × Node))) :
    entriesSize (mappings.foldl takeOver entries) + mappings.length ≤
      entriesSize entries + itemsSize (mappings.map mapping) := by
  induction mappings generalizing entries with
  | nil => simp [itemsSize]
  | cons others mappings ih =>
      have first := entriesSize_takeOver_le entries others
      have later := ih (takeOver entries others)
      simp only [List.foldl_cons, List.map_cons, List.length_cons, itemsSize, size]
      omega

theorem map_mapping_of_mapM {items : List Node} {mappings : List (List (Node × Node))}
    (found : mergedMappings? (.sequence items) = some mappings) : mappings.map mapping = items := by
  rw [mergedMappings?] at found
  induction items generalizing mappings with
  | nil =>
      cases found
      rfl
  | cons item items ih =>
      obtain ⟨first, others, own, later, rfl⟩ := exists_of_mapM_cons found
      rw [List.map_cons, ih later]
      split at own
      · cases own
        rfl
      · cases own

/-- What stands under a merge key is larger than what is taken over from it. -/
theorem entriesSize_merged_lt {value : Node} {mappings : List (List (Node × Node))}
    (found : mergedMappings? value = some mappings) (left : List (Node × Node)) :
    entriesSize (mappings.foldl takeOver left) < value.size + entriesSize left := by
  have taken := entriesSize_foldl_takeOver_le left mappings
  cases value with
  | mapping entries =>
      cases found
      simp only [List.map_cons, List.map_nil, itemsSize, size, List.length_singleton] at *
      omega
  | sequence items =>
      rw [map_mapping_of_mapM found] at taken
      simp only [size]
      omega
  | _ => cases found

theorem entriesSize_mergedEntries?_le {entries merged : List (Node × Node)}
    (found : mergedEntries? entries = some merged) : entriesSize merged ≤ entriesSize entries := by
  rw [mergedEntries?] at found
  split at found
  next =>
    cases found
    exact le_rfl
  next value left removed =>
    obtain ⟨mappings, standing, rfl⟩ := Option.map_eq_some_iff.mp found
    rw [entriesSize_swapRemove? removed]
    exact (entriesSize_merged_lt standing left).le

/-- Replacing a merge key of the mapping itself loses the mapping under it. -/
theorem entriesSize_mergedEntries?_lt {entries merged : List (Node × Node)}
    (present : swapRemove? (fun entry => entry.1.isMergeKey) entries ≠ none)
    (found : mergedEntries? entries = some merged) : entriesSize merged < entriesSize entries := by
  rw [mergedEntries?] at found
  split at found
  next absent => exact absurd absent present
  next value left removed =>
    obtain ⟨mappings, standing, rfl⟩ := Option.map_eq_some_iff.mp found
    rw [entriesSize_swapRemove? removed]
    exact entriesSize_merged_lt standing left

section Replacing

variable {depth : Nat}

variable (smaller : ∀ {node replaced : Node}, replaceMergeKeys? depth node = some replaced →
  replaced.size ≤ node.size)

include smaller

theorem itemsSize_mapM_le {items results : List Node}
    (found : items.mapM (replaceMergeKeys? depth) = some results) :
    itemsSize results ≤ itemsSize items := by
  induction items generalizing results with
  | nil =>
      cases found
      exact le_rfl
  | cons item items ih =>
      obtain ⟨first, others, own, later, rfl⟩ := exists_of_mapM_cons found
      exact Nat.add_le_add (smaller own) (ih later)

theorem entriesSize_mapM_le {entries results : List (Node × Node)}
    (found : entries.mapM (replaceInValue? depth) = some results) :
    entriesSize results ≤ entriesSize entries := by
  induction entries generalizing results with
  | nil =>
      cases found
      exact le_rfl
  | cons entry entries ih =>
      obtain ⟨first, others, own, later, rfl⟩ := exists_of_mapM_cons found
      obtain ⟨value, replaced, same⟩ := Option.bind_eq_some_iff.mp own
      cases same
      exact Nat.add_le_add (smaller replaced) (ih later)

end Replacing

theorem size_replaceMergeKeys?_le {depth : Nat} {node replaced : Node}
    (found : replaceMergeKeys? depth node = some replaced) : replaced.size ≤ node.size := by
  induction depth generalizing node replaced with
  | zero =>
      cases found
      exact le_rfl
  | succ depth ih =>
      cases node with
      | mapping entries =>
          rw [replaceMergeKeys?_mapping] at found
          obtain ⟨results, filled, rfl⟩ := Option.map_eq_some_iff.mp found
          obtain ⟨merged, taken, kept⟩ := Option.bind_eq_some_iff.mp filled
          have replacedSize := entriesSize_mapM_le ih kept
          have mergedSize := entriesSize_mergedEntries?_le taken
          exact Nat.succ_le_succ (replacedSize.trans mergedSize)
      | sequence items =>
          rw [replaceMergeKeys?_sequence] at found
          obtain ⟨results, kept, rfl⟩ := Option.map_eq_some_iff.mp found
          exact Nat.succ_le_succ (itemsSize_mapM_le ih kept)
      | tagged tag content =>
          rw [replaceMergeKeys?] at found
          obtain ⟨inner, kept, found⟩ := Option.bind_eq_some_iff.mp found
          cases found
          exact Nat.succ_le_succ (ih kept)
      | _ =>
          cases found
          exact le_rfl

end Node

section Values

open Node

mutual

theorem size_valueNode (value : Value) : (valueNode value).size = value.size :=
  match value with
  | .null | .bool _ | .number _ | .string _ => rfl
  | .array items => by rw [valueNode, Node.size, Value.size, itemsSize_itemNodes items]
  | .object members => by rw [valueNode, Node.size, Value.size, entriesSize_memberNodes members]

theorem itemsSize_itemNodes (items : List Value) :
    Node.itemsSize (itemNodes items) = Value.itemsSize items :=
  match items with
  | [] => rfl
  | item :: items => by
      rw [itemNodes, Node.itemsSize, Value.itemsSize, size_valueNode item,
        itemsSize_itemNodes items]

theorem entriesSize_memberNodes (members : List (String × Value)) :
    entriesSize (memberNodes members) = Value.membersSize members :=
  match members with
  | [] => rfl
  | (_, value) :: members => by
      rw [memberNodes, entriesSize, Value.membersSize, size_valueNode value,
        entriesSize_memberNodes members]

end

mutual

theorem size_toValue_le (node : Node) : node.toValue.size ≤ node.size :=
  match node with
  | .null | .bool _ | .string _ | .number (.whole _) => le_rfl
  | .number (.float value) => by
      rw [toValue, numberValue]
      split <;> exact le_rfl
  | .sequence items => Nat.succ_le_succ (itemsSize_itemValues_le items)
  | .mapping entries => by
      have stored := Value.membersSize_foldl_put_le (entryMembers entries) []
      have members := membersSize_entryMembers_le entries
      rw [Value.membersSize, Nat.zero_add] at stored
      exact Nat.succ_le_succ (stored.trans members)
  | .tagged tag content => (size_toValue_le content).trans (Nat.le_succ _)

theorem itemsSize_itemValues_le (items : List Node) :
    Value.itemsSize (itemValues items) ≤ Node.itemsSize items :=
  match items with
  | [] => le_rfl
  | item :: items => Nat.add_le_add (size_toValue_le item) (itemsSize_itemValues_le items)

theorem membersSize_entryMembers_le (entries : List (Node × Node)) :
    Value.membersSize (entryMembers entries) ≤ entriesSize entries :=
  match entries with
  | [] => le_rfl
  | (_, value) :: entries =>
      Nat.add_le_add (size_toValue_le value) (membersSize_entryMembers_le entries)

end

theorem swapRemove?_memberNodes_ne_none {members : Members}
    (present : mergeKey ∈ Entries.keys members) :
    swapRemove? (fun entry => entry.1.isMergeKey) (memberNodes members) ≠ none := by
  induction members with
  | nil => cases present
  | cons member members ih =>
      rw [memberNodes, swapRemove?]
      split
      · split <;> simp
      next other =>
        have later : mergeKey ∈ Entries.keys members := by
          refine (List.mem_cons.mp present).resolve_left fun same => other ?_
          exact decide_eq_true same.symm
        simpa using ih later

mutual

/-- A merge key makes the node of a value smaller when it is replaced. -/
theorem size_replaced_lt (value : Value) {depth : Nat} (deep : (valueNode value).depth < depth)
    (mentioned : value.mentions mergeKey = true) {replaced : Node}
    (found : replaceMergeKeys? depth (valueNode value) = some replaced) :
    replaced.size < (valueNode value).size :=
  match depth, value with
  | 0, _ => absurd deep (Nat.not_lt_zero _)
  | _ + 1, .null | _ + 1, .bool _ | _ + 1, .number _ | _ + 1, .string _ => by cases mentioned
  | depth + 1, .array items => by
      rw [valueNode, replaceMergeKeys?_sequence] at found
      obtain ⟨results, kept, rfl⟩ := Option.map_eq_some_iff.mp found
      exact Nat.succ_lt_succ
        (itemsSize_replaced_lt items (Nat.lt_of_succ_lt_succ deep) mentioned kept)
  | depth + 1, .object members => by
      rw [valueNode, replaceMergeKeys?_mapping] at found
      obtain ⟨results, filled, rfl⟩ := Option.map_eq_some_iff.mp found
      obtain ⟨merged, taken, kept⟩ := Option.bind_eq_some_iff.mp filled
      by_cases present : mergeKey ∈ Entries.keys members
      · have replacedSize := entriesSize_mapM_le size_replaceMergeKeys?_le kept
        have mergedSize := entriesSize_mergedEntries?_lt
          (swapRemove?_memberNodes_ne_none present) taken
        exact Nat.succ_lt_succ (replacedSize.trans_lt mergedSize)
      · cases (mergedEntries?_memberNodes present).symm.trans taken
        exact Nat.succ_lt_succ
          (entriesSize_replaced_lt members (Nat.lt_of_succ_lt_succ deep) mentioned present kept)

theorem itemsSize_replaced_lt (items : List Value) {depth : Nat}
    (deep : Node.itemsDepth (itemNodes items) < depth)
    (mentioned : Value.itemsMention mergeKey items = true) {results : List Node}
    (found : (itemNodes items).mapM (replaceMergeKeys? depth) = some results) :
    Node.itemsSize results < Node.itemsSize (itemNodes items) :=
  match items with
  | [] => by cases mentioned
  | item :: items => by
      rw [itemNodes] at found ⊢
      obtain ⟨first, others, own, later, rfl⟩ := exists_of_mapM_cons found
      obtain ⟨firstDeep, laterDeep⟩ := Nat.max_lt.mp deep
      rcases Bool.or_eq_true_iff.mp mentioned with here | elsewhere
      · exact Nat.add_lt_add_of_lt_of_le (size_replaced_lt item firstDeep here own)
          (itemsSize_mapM_le size_replaceMergeKeys?_le later)
      · exact Nat.add_lt_add_of_le_of_lt (size_replaceMergeKeys?_le own)
          (itemsSize_replaced_lt items laterDeep elsewhere later)

theorem entriesSize_replaced_lt (members : List (String × Value)) {depth : Nat}
    (deep : Node.entriesDepth (memberNodes members) < depth)
    (mentioned : Value.membersMention mergeKey members = true)
    (absent : mergeKey ∉ Entries.keys members) {results : List (Node × Node)}
    (found : (memberNodes members).mapM (replaceInValue? depth) = some results) :
    entriesSize results < entriesSize (memberNodes members) :=
  match members with
  | [] => by cases mentioned
  | (key, value) :: members => by
      rw [memberNodes] at found ⊢
      obtain ⟨first, others, own, later, rfl⟩ := exists_of_mapM_cons found
      obtain ⟨inner, replaced, same⟩ := Option.bind_eq_some_iff.mp own
      cases same
      obtain ⟨firstDeep, laterDeep⟩ := Nat.max_lt.mp deep
      rw [Entries.keys_cons, List.mem_cons, not_or] at absent
      rw [Value.membersMention, Bool.or_eq_true_iff, Bool.or_eq_true_iff,
        decide_eq_true_eq] at mentioned
      rcases mentioned with (here | within) | elsewhere
      · exact absurd here.symm absent.1
      · exact Nat.add_lt_add_of_lt_of_le (size_replaced_lt value firstDeep within replaced)
          (entriesSize_mapM_le size_replaceMergeKeys?_le later)
      · exact Nat.add_lt_add_of_le_of_lt (size_replaceMergeKeys?_le replaced)
          (entriesSize_replaced_lt members laterDeep elsewhere absent.2 later)

end

/-- A value in which a merge key occurs is not what its node denotes without merge keys. -/
theorem toValue_replaced_ne {value : Value} {depth : Nat} (deep : (valueNode value).depth < depth)
    (mentioned : value.mentions mergeKey = true) {replaced : Node}
    (found : replaceMergeKeys? depth (valueNode value) = some replaced) :
    replaced.toValue ≠ value := by
  intro same
  have loss := size_replaced_lt value deep mentioned found
  have bound := size_toValue_le replaced
  rw [same] at bound
  rw [size_valueNode] at loss
  omega

end Values

end Yaml

end ApiAssembly
