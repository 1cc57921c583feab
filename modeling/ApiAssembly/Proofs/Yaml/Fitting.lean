import ApiAssembly.Proofs.Value.Fitting
import ApiAssembly.Proofs.Yaml.Sameness
import ApiAssembly.Proofs.Yaml.WellKeyed

/-!
# What is read from YAML

The whole numbers of a YAML text have 64 bits, and a key that a mapping has already is refused
or not taken over, so the node of a text is proper.  Floating-point numbers that are none or
infinite become null, so the numbers of the text's value fit.
-/

namespace ApiAssembly.Yaml

section Scalars

theorem fits_of_classify {size value : Int} (found : classify size = some (.whole value)) :
    (Number.whole value).Fits := by
  rw [classify] at found
  split at found
  next range =>
    cases found
    exact range
  next => split at found <;> cases found

theorem fits_of_plainOf {text : String} {value : Int} (found : plainOf text = .whole value) :
    (Number.whole value).Fits := by
  rw [plainOf] at found
  split at found
  · cases found
  · split at found
    · cases found
    · split at found
      next plain classified =>
        subst found
        obtain ⟨size, -, classified⟩ := Option.bind_eq_some_iff.mp classified
        exact fits_of_classify classified
      next =>
        split at found
        · cases found
        · split at found <;> cases found

theorem proper_of_plainNode? {text : String} {node : Node} (found : plainNode? text = some node) :
    node.Proper := by
  rw [plainNode?] at found
  split at found
  · cases found
    exact .null
  · cases found
    exact .bool _
  next plain =>
    cases found
    exact .whole (fits_of_plainOf plain)
  · cases found
  · cases found
    exact .float _
  · cases found
    exact .string _

theorem proper_of_scalarNode? {tag : Option String} {plain : Bool} {text : String} {node : Node}
    (found : scalarNode? tag plain text = some node) : node.Proper := by
  rw [scalarNode?.eq_def] at found
  split at found
  · split at found
    · exact proper_of_plainNode? found
    · cases found
      exact .string _
  · split at found
    · obtain ⟨value, -, rfl⟩ := Option.map_eq_some_iff.mp found
      exact .bool value
    · split at found
      · split at found
        next classified =>
          cases found
          obtain ⟨size, -, classified⟩ := Option.bind_eq_some_iff.mp classified
          exact .whole (fits_of_classify classified)
        next => cases found
      · split at found
        · obtain ⟨value, -, rfl⟩ := Option.map_eq_some_iff.mp found
          exact .float value
        · split at found
          · split at found
            · cases found
              exact .null
            · cases found
          · cases found
            exact .string _

end Scalars

section Counting

variable {α β : Type} {holds : α → Prop} {kept : β → Prop}

/-- Whatever has been counted, a result has a property. -/
def Ensures (holds : α → Prop) (action : Counting α) : Prop :=
  ∀ count result, action.run count = some result → holds result.1

theorem Ensures.pure {result : α} (own : holds result) : Ensures holds (pure result) := by
  intro count found same
  cases same
  exact own

theorem Ensures.anything (action : Counting α) : Ensures (fun _ => True) action :=
  fun _ _ _ => trivial

theorem ensures_failure : Ensures holds (failure : Counting α) := by
  intro count found same
  cases same

theorem Ensures.bind {action : Counting α} {next : α → Counting β} (first : Ensures holds action)
    (later : ∀ result, holds result → Ensures kept (next result)) :
    Ensures kept (action >>= next) := by
  intro count found same
  obtain ⟨⟨result, counted⟩, ran, rest⟩ := Option.bind_eq_some_iff.mp same
  exact later result (first count _ ran) counted found rest

theorem Ensures.lift {found : Option α} (each : ∀ result ∈ found, holds result) :
    Ensures holds (StateT.lift found) := by
  intro count result same
  obtain ⟨own, rfl, rest⟩ := Option.bind_eq_some_iff.mp same
  cases rest
  exact each own rfl

theorem Ensures.mapM {read : β → Counting α} (each : ∀ item, Ensures holds (read item))
    (items : List β) :
    Ensures (fun results => ∀ result ∈ results, holds result) (items.mapM read) := by
  induction items with
  | nil => exact .pure (by simp)
  | cons item items ih =>
      rw [List.mapM_cons]
      refine (each item).bind fun first own => ih.bind fun later others => .pure ?_
      exact List.forall_mem_cons.mpr ⟨own, others⟩

theorem Ensures.foldlM {step : α → β → Counting α}
    (each : ∀ before item, holds before → Ensures holds (step before item)) {start : α}
    (own : holds start) (items : List β) : Ensures holds (items.foldlM step start) := by
  induction items generalizing start with
  | nil => exact .pure own
  | cons item items ih =>
      rw [List.foldlM_cons]
      exact (each start item own).bind fun _ next => ih next

end Counting

section Nodes

variable {part : Bool → Tree Nat → Counting Node}

theorem ensures_addEntry {entries : List (Node × Node)} {key : Node} {value : Counting Node}
    (each : ProperEntries entries) (keyProper : key.Proper) (own : Ensures Node.Proper value) :
    Ensures ProperEntries (addEntry entries key value) := by
  rw [addEntry]
  split
  next => exact ensures_failure
  next fresh =>
    exact own.bind fun node proper => .pure (each.concat keyProper proper (by simpa using fresh))

theorem ensures_contentNode (each : ∀ tagged tree, Ensures Node.Proper (part tagged tree))
    (tagged : Bool) (tree : Tree Nat) : Ensures Node.Proper (contentNode part tagged tree) := by
  cases tree with
  | «alias» => exact ensures_failure
  | scalar label plain text => exact .lift fun node found => proper_of_scalarNode? found
  | sequence label items =>
      exact (Ensures.mapM (each false) items).bind fun nodes own => .pure (.sequence own)
  | mapping label entries =>
      have kept : Ensures ProperEntries (entries.foldlM (fun present entry => do
            addEntry present (← part tagged entry.1) (part false entry.2)) []) := by
        refine .foldlM (fun present entry own => ?_) .nil entries
        exact (each tagged entry.1).bind fun key proper =>
          ensures_addEntry own proper (each false entry.2)
      exact kept.bind fun nodes own => .pure (Node.proper_mapping_iff.mpr own)

theorem ensures_labelledNode (each : ∀ tagged tree, Ensures Node.Proper (part tagged tree))
    (tagged : Bool) (tree : Tree Nat) : Ensures Node.Proper (labelledNode part tagged tree) := by
  rw [labelledNode]
  split
  next tag named =>
    exact (ensures_contentNode each true tree).bind fun content fit => .pure (.tagged tag fit)
  next => exact ensures_contentNode each tagged tree

theorem ensures_node (aliases : Aliases) (levels : Nat) (tagged : Bool) (tree : Tree Nat) :
    Ensures Node.Proper (aliases.node levels tagged tree) := by
  induction levels generalizing tagged tree with
  | zero =>
      refine (Ensures.anything (aliases.target tagged tree)).bind fun found _ => ?_
      simp only
      split
      · exact ensures_failure
      · exact ensures_labelledNode (fun _ _ => ensures_failure) found.1 found.2
  | succ levels ih =>
      exact (Ensures.anything (aliases.target tagged tree)).bind fun found _ =>
        ensures_labelledNode ih found.1 found.2

theorem proper_of_toNode? {tree : Tree String} {node : Node} (found : tree.toNode? = some node) :
    node.Proper := by
  obtain ⟨numbered, -, found⟩ := Option.bind_eq_some_iff.mp found
  obtain ⟨counted, ran, found⟩ := Option.bind_eq_some_iff.mp found
  cases found
  exact ensures_node _ _ _ _ 0 counted ran

end Nodes

section MergeKeys

open Node

theorem perm_of_swapRemove? {condition : Node × Node → Bool} {entries left : List (Node × Node)}
    {value : Node} (found : swapRemove? condition entries = some (value, left)) :
    ∃ key, entries.Perm ((key, value) :: left) := by
  induction entries generalizing left with
  | nil => cases found
  | cons entry rest ih =>
      rw [swapRemove?] at found
      split at found
      · split at found
        next last ending =>
          cases found
          refine ⟨entry.1, .cons entry ?_⟩
          rw [← List.dropLast_append_getLast? last ending]
          simp
        next ending =>
          cases found
          rw [List.getLast?_eq_none_iff.mp ending]
          exact ⟨entry.1, .refl _⟩
      · obtain ⟨⟨own, later⟩, removed, same⟩ := Option.map_eq_some_iff.mp found
        cases same
        obtain ⟨key, reordered⟩ := ih removed
        exact ⟨key, (reordered.cons entry).trans (.swap _ _ _)⟩

theorem properEntries_takeOver {entries others : List (Node × Node)}
    (proper : ProperEntries entries) (otherProper : ProperEntries others) :
    ProperEntries (takeOver entries others) := by
  induction others generalizing entries with
  | nil => exact proper
  | cons other others ih =>
      rw [takeOver, List.foldl_cons]
      refine ih ?_ otherProper.tail
      split
      next => exact proper
      next fresh =>
        exact proper.concat (otherProper.keys other List.mem_cons_self)
          (otherProper.values other List.mem_cons_self) (by simpa using fresh)

theorem exists_of_mapM_cons {α β : Type} {read? : α → Option β} {item : α} {items : List α}
    {results : List β} (found : (item :: items).mapM read? = some results) :
    ∃ first others, read? item = some first ∧ items.mapM read? = some others ∧
      results = first :: others := by
  rw [List.mapM_cons] at found
  obtain ⟨first, own, found⟩ := Option.bind_eq_some_iff.mp found
  obtain ⟨others, later, same⟩ := Option.bind_eq_some_iff.mp found
  exact ⟨first, others, own, later, (Option.some.inj same).symm⟩

theorem exists_of_mem_mapM {α β : Type} {read? : α → Option β} {items : List α}
    {results : List β} (found : items.mapM read? = some results) {result : β}
    (member : result ∈ results) : ∃ item ∈ items, read? item = some result := by
  induction items generalizing results with
  | nil =>
      cases found
      cases member
  | cons item items ih =>
      obtain ⟨first, others, own, later, rfl⟩ := exists_of_mapM_cons found
      rcases List.mem_cons.mp member with rfl | member
      · exact ⟨item, List.mem_cons_self, own⟩
      · obtain ⟨other, inside, same⟩ := ih later member
        exact ⟨other, List.mem_cons_of_mem _ inside, same⟩

theorem properEntries_of_mergedMappings? {node : Node} {mappings : List (List (Node × Node))}
    (proper : node.Proper) (found : mergedMappings? node = some mappings) :
    ∀ entries ∈ mappings, ProperEntries entries := by
  cases node with
  | mapping entries =>
      cases found
      exact List.forall_mem_singleton.mpr (proper_mapping_iff.mp proper)
  | sequence items =>
      intro entries member
      obtain ⟨item, inside, same⟩ := exists_of_mem_mapM found member
      cases proper with
      | sequence each =>
          cases item with
          | mapping inner =>
              cases same
              exact proper_mapping_iff.mp (each _ inside)
          | _ => cases same
  | _ => cases found

theorem properEntries_foldl_takeOver {entries : List (Node × Node)}
    (proper : ProperEntries entries) {mappings : List (List (Node × Node))}
    (each : ∀ entries ∈ mappings, ProperEntries entries) :
    ProperEntries (mappings.foldl takeOver entries) := by
  induction mappings generalizing entries with
  | nil => exact proper
  | cons mapping mappings ih =>
      rw [List.forall_mem_cons] at each
      exact ih (properEntries_takeOver proper each.1) each.2

theorem properEntries_of_mergedEntries? {entries merged : List (Node × Node)}
    (proper : ProperEntries entries) (found : mergedEntries? entries = some merged) :
    ProperEntries merged := by
  rw [mergedEntries?] at found
  split at found
  next =>
    cases found
    exact proper
  next value left removed =>
    obtain ⟨key, reordered⟩ := perm_of_swapRemove? removed
    obtain ⟨mappings, standing, rfl⟩ := Option.map_eq_some_iff.mp found
    have whole := proper.perm reordered
    exact properEntries_foldl_takeOver whole.tail
      (properEntries_of_mergedMappings? (whole.values _ List.mem_cons_self) standing)

/-- Replacing merge keys within the values of entries leaves the keys as they are. -/
theorem keys_of_mapM {entries results : List (Node × Node)} {replace? : Node → Option Node}
    (found : (entries.mapM fun entry => do
      return (entry.1, ← replace? entry.2)) = some results) :
    results.map Prod.fst = entries.map Prod.fst := by
  induction entries generalizing results with
  | nil =>
      cases found
      rfl
  | cons entry entries ih =>
      obtain ⟨first, others, own, later, rfl⟩ := exists_of_mapM_cons found
      obtain ⟨value, -, same⟩ := Option.bind_eq_some_iff.mp own
      cases same
      rw [List.map_cons, List.map_cons, ih later]

theorem proper_of_replaceMergeKeys? {depth : Nat} {node replaced : Node}
    (proper : node.Proper) (found : replaceMergeKeys? depth node = some replaced) :
    replaced.Proper := by
  induction depth generalizing node replaced with
  | zero =>
      cases found
      exact proper
  | succ depth ih =>
      cases node with
      | mapping entries =>
          rw [replaceMergeKeys?] at found
          obtain ⟨merged, taken, found⟩ := Option.bind_eq_some_iff.mp found
          obtain ⟨results, kept, found⟩ := Option.bind_eq_some_iff.mp found
          cases found
          have mergedProper := properEntries_of_mergedEntries? (proper_mapping_iff.mp proper) taken
          refine proper_mapping_iff.mpr (mergedProper.of_keys (keys_of_mapM kept) ?_)
          intro entry member
          obtain ⟨before, inside, same⟩ := exists_of_mem_mapM kept member
          obtain ⟨value, own, same⟩ := Option.bind_eq_some_iff.mp same
          cases same
          exact ih (mergedProper.values before inside) own
      | sequence items =>
          rw [replaceMergeKeys?] at found
          obtain ⟨results, kept, found⟩ := Option.bind_eq_some_iff.mp found
          cases found
          cases proper with
          | sequence each =>
              refine .sequence fun item member => ?_
              obtain ⟨before, inside, own⟩ := exists_of_mem_mapM kept member
              exact ih (each before inside) own
      | tagged tag content =>
          rw [replaceMergeKeys?] at found
          obtain ⟨inner, kept, found⟩ := Option.bind_eq_some_iff.mp found
          cases found
          cases proper with
          | tagged tag proper => exact .tagged tag (ih proper kept)
      | _ =>
          cases found
          exact proper

end MergeKeys

section Values

open Node

mutual

theorem numbersFit_toValue (node : Node) (proper : node.Proper) : node.toValue.NumbersFit :=
  match node with
  | .null => .null
  | .bool value => .bool value
  | .number (.whole value) => by
      cases proper with
      | whole fits => exact .number fits
  | .number (.float value) => by
      rw [toValue, numberValue]
      split
      next finite => exact .number finite
      next => exact .null
  | .string text => .string text
  | .sequence items => by
      cases proper with
      | sequence each => exact .array (numbersFit_itemValues items each)
  | .mapping entries => by
      have values := (proper_mapping_iff.mp proper).values
      exact .object (Entries.forall_mem_ofPairs (numbersFit_entryMembers entries values))
  | .tagged _ content => by
      cases proper with
      | tagged tag proper => exact numbersFit_toValue content proper

theorem numbersFit_itemValues (items : List Node) (each : ∀ item ∈ items, item.Proper) :
    ∀ value ∈ itemValues items, value.NumbersFit :=
  match items with
  | [] => by simp [itemValues]
  | item :: items => by
      rw [List.forall_mem_cons] at each
      rw [itemValues, List.forall_mem_cons]
      exact ⟨numbersFit_toValue item each.1, numbersFit_itemValues items each.2⟩

theorem numbersFit_entryMembers (entries : List (Node × Node))
    (each : ∀ entry ∈ entries, entry.2.Proper) :
    ∀ member ∈ entryMembers entries, member.2.NumbersFit :=
  match entries with
  | [] => by simp [entryMembers]
  | (key, value) :: entries => by
      rw [List.forall_mem_cons] at each
      rw [entryMembers, List.forall_mem_cons]
      exact ⟨numbersFit_toValue value each.1, numbersFit_entryMembers entries each.2⟩

end

/-- The node of a text is proper. -/
theorem proper_of_readNode {text : String} {node : Node} (found : readNode text = some node) :
    node.Proper := by
  obtain ⟨tokens, -, found⟩ := Option.bind_eq_some_iff.mp found
  obtain ⟨tree?, -, found⟩ := Option.bind_eq_some_iff.mp found
  cases tree? with
  | none =>
      cases found
      exact .null
  | some tree =>
      obtain ⟨node, own, replaced⟩ := Option.bind_eq_some_iff.mp found
      exact proper_of_replaceMergeKeys? (proper_of_toNode? own) replaced

/-- What a YAML text describes has distinct keys and numbers that fit. -/
theorem isData_of_read? {text : String} {value : Value} (found : read? text = some value) :
    value.IsData := by
  refine ⟨wellKeyed_of_read? found, ?_⟩
  obtain ⟨node, reading, rfl⟩ := Option.map_eq_some_iff.mp found
  exact numbersFit_toValue node (proper_of_readNode reading)

end Values

end ApiAssembly.Yaml
