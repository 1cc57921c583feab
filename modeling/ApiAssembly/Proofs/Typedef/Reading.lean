import ApiAssembly.Proofs.TypeExpr.RoundTrip
import ApiAssembly.Proofs.Typedef.Declaring
import Mathlib.Data.List.Induction

/-!
# Reading a type off its declarations

The progress of a run over tags without problems is the tree of the declarations so far,
with a path to every declared part.  The main statement says that the schema of the type
that a comment defines is the tree of its declarations.
-/

namespace ApiAssembly

open Comment (Tag Block)

namespace Typedef

/-- A part is declared at a place. -/
def Declared (tags : List Tag) (place : List String) : Prop :=
  ∃ tag ∈ declarations tags, segments tag.name = place

theorem mem_declarations_append {tags : List Tag} {other : Tag}
    (member : other ∈ declarations tags) (tag : Tag) : other ∈ declarations (tags ++ [tag]) := by
  rw [declarations, List.filter_append]
  exact List.mem_append_left _ member

theorem Declared.append {tags : List Tag} {place : List String} (declared : Declared tags place)
    (tag : Tag) : Declared (tags ++ [tag]) place := by
  obtain ⟨other, member, same⟩ := declared
  exact ⟨other, mem_declarations_append member tag, same⟩

/-- The progress is the tree of what the tags say, and its paths lead to the declared
parts.  Nothing is said about places where nothing is declared. -/
structure Reads (own : Schema) (tags : List Tag) (progress : Progress) : Prop where
  root_eq : progress.root = schemaAt tags [] own
  leads : ∀ {name path}, Entries.get? name progress.declared = some path →
    ∃ tag ∈ declarations tags, tag.name = name ∧
      Leads tags [] own path (segments name) (declaredSchema tag)
  converted : ∀ tag ∈ declarations tags, propertySchema tag = .ok (declaredSchema tag)
  declared_of_parts : ∀ place, partsAt tags place ≠ [] → place ≠ [] → Declared tags place
  declared_of_settings : ∀ place, settingsAt tags place ≠ [] → Declared tags place

theorem distinctNames_of_concat {tags : List Tag} {tag : Tag}
    (distinct : DistinctNames (tags ++ [tag])) : DistinctNames tags := by
  rw [DistinctNames, declarations, List.filter_append, List.map_append,
    List.nodup_append] at distinct
  exact distinct.1

/-- A further declaration declares what was not declared before. -/
theorem not_declared_of_concat {tags : List Tag} {tag : Tag}
    (distinct : DistinctNames (tags ++ [tag])) (declares : tag.title = "property") :
    ¬ Declared tags (segments tag.name) := by
  rintro ⟨other, member, same⟩
  rw [DistinctNames, declarations_concat tags declares, List.map_append, List.nodup_append]
    at distinct
  exact distinct.2.2 other.name (List.mem_map.mpr ⟨other, member, rfl⟩) tag.name (by simp)
    (segments_injective same)

namespace Reads

variable {own : Schema} {tags : List Tag} {progress advanced : Progress} {tag : Tag}

theorem nil (undivided : own.Undivided) : Reads own [] { root := own } where
  root_eq := (schemaAt_of_silent rfl rfl undivided.extensions_eq).symm
  leads := by simp
  converted := by simp [declarations]
  declared_of_parts := by simp [partsAt, declarations]
  declared_of_settings := by simp [settingsAt]

/-- Nothing is said about a place where nothing is declared. -/
theorem schemaAt_of_not_declared (reads : Reads own tags progress) {place : List String}
    (inhabited : place ≠ []) (undeclared : ¬ Declared tags place) {found : Schema}
    (plain : found.extensions = []) : schemaAt tags place found = found := by
  apply schemaAt_of_silent
  · by_contra parts
    exact undeclared (reads.declared_of_parts place parts inhabited)
  · by_contra settings
    exact undeclared (reads.declared_of_settings place settings)
  · exact plain

/-- The path to the parent of a declaration leads to the parent's place. -/
theorem exists_leads_of_parentPath? (undivided : own.Undivided)
    (reads : Reads own tags progress) {parent : String} {path : List Step}
    (known : progress.parentPath? parent = some path) :
    ∃ found, found.Undivided ∧ Leads tags [] own path (placeOf parent) found ∧
      (placeOf parent ≠ [] → Declared tags (placeOf parent)) := by
  rw [Progress.parentPath?] at known
  rw [placeOf]
  split
  · rename_i root
    rw [if_pos root] at known
    cases known
    exact ⟨own, undivided, .here [] own, fun inner => absurd rfl inner⟩
  · rename_i inner
    rw [if_neg inner] at known
    obtain ⟨tag, member, rfl, leads⟩ := reads.leads known
    exact ⟨declaredSchema tag, undivided_declaredSchema tag, leads, fun _ => ⟨tag, member, rfl⟩⟩

/-- A new part has the schema of its declaration, as nothing else is said about it. -/
theorem partOf_concat (reads : Reads own tags progress) (distinct : DistinctNames (tags ++ [tag]))
    (declares : tag.title = "property") :
    partOf (tags ++ [tag]) tag = ⟨leafOf tag, tag.optional, declaredSchema tag⟩ := by
  have nonempty := segments_ne_nil tag.name
  have outside : ¬ segments tag.name <+: (segments tag.name).dropLast := by
    intro inside
    have bound := inside.length_le
    have positive := List.length_pos_iff.mpr nonempty
    rw [List.length_dropLast] at bound
    omega
  have before := reads.schemaAt_of_not_declared nonempty (not_declared_of_concat distinct declares)
    (undivided_declaredSchema tag).extensions_eq
  rw [partOf, ← (agreeExcept_concat_declaration tags declares).schemaAt_eq outside, before]

theorem schemaAt_concat_declaration (reads : Reads own tags progress)
    (distinct : DistinctNames (tags ++ [tag])) (declares : tag.title = "property")
    {place : List String} (here : (segments tag.name).dropLast = place) (found : Schema) :
    schemaAt (tags ++ [tag]) place found =
      (found.withParts ((partsAt tags place).map (partOf tags) ++
        [⟨leafOf tag, tag.optional, declaredSchema tag⟩])).withExtensions
          (keywordsAt tags place) := by
  subst here
  have silent : tag.title ≠ "propertyOpenapi" := declares ▸ by decide
  rw [schemaAt_eq, partsAt_concat tags _ declares, if_pos rfl, List.map_append,
    ← (agreeExcept_concat_declaration tags declares).map_partOf, List.map_singleton,
    partOf_concat reads distinct declares, keywordsAt, settingsAt_concat_of_ne tags _ silent]
  rfl

/-- A declaration attaches the part that it adds to the tree, behind the others of its
place. -/
theorem attach_schemaAt (reads : Reads own tags progress) {place : List String} {found : Schema}
    (undivided : found.Undivided) (distinct : DistinctNames (tags ++ [tag]))
    (declares : tag.title = "property") {property : Schema}
    (converted : propertySchema tag = .ok property)
    (segmentsEq : segments tag.name = place ++ [(splitName tag.name).2]) {step : Step}
    {attach : Schema → Schema}
    (attaches : Attaches tag property (schemaAt tags place found) step attach) :
    step = found.stepTo (partsAt tags place).length (leafOf tag) ∧
      attach (schemaAt tags place found) = schemaAt (tags ++ [tag]) place found := by
  have leaf : leafOf tag = (splitName tag.name).2 := by simp [leafOf, segmentsEq]
  have here : (segments tag.name).dropLast = place := by simp [segmentsEq]
  have ownSchema : declaredSchema tag = property := by simp [declaredSchema, converted]
  have leaves := nodup_leaves distinct place
  rw [partsAt_concat tags place declares, if_pos here, List.map_append, List.map_singleton, leaf,
    ← leaves_map_partOf tags tags place] at leaves
  rw [schemaAt_eq] at attaches
  obtain ⟨stepEq, attached⟩ := attaches.eq_withParts_concat undivided leaves
  constructor
  · rw [stepEq, List.length_map, leaf]
  · rw [schemaAt_concat_declaration reads distinct declares here, schemaAt_eq, attached, leaf,
      ownSchema]

/-- A successful declaration adds a part to the tree. -/
theorem declare (undivided : own.Undivided) (reads : Reads own tags progress)
    (distinct : DistinctNames (tags ++ [tag])) (inhabited : "" ∉ segments tag.name)
    (declares : tag.title = "property") (success : progress.declare tag = .ok advanced) :
    Reads own (tags ++ [tag]) advanced := by
  obtain ⟨path, property, parent, step, attach, known, converted, present, attaches, rfl⟩ :=
    Progress.exists_of_declare_eq_ok success
  obtain ⟨found, foundUndivided, leads, declaredParent⟩ :=
    exists_leads_of_parentPath? undivided reads known
  have segmentsEq := segments_eq_placeOf_concat inhabited
  generalize placeOf (splitName tag.name).1 = place at leads declaredParent segmentsEq
  have here : (segments tag.name).dropLast = place := by simp [segmentsEq]
  have parts : partsAt (tags ++ [tag]) place = partsAt tags place ++ [tag] := by
    rw [partsAt_concat tags place declares, if_pos here]
  have member : tag ∈ declarations (tags ++ [tag]) := by
    simp [declarations_concat tags declares]
  have agree : AgreeExcept place tags (tags ++ [tag]) :=
    here ▸ agreeExcept_concat_declaration tags declares
  have distinctBefore := distinctNames_of_concat distinct
  -- The path was recorded before siblings came, and still finds the parent's whole schema.
  rw [reads.root_eq, leads.at? distinctBefore, Option.some.injEq] at present
  subst present
  obtain ⟨rfl, attached⟩ := attach_schemaAt reads foundUndivided distinct declares converted
    segmentsEq attaches
  constructor
  case root_eq =>
    rw [reads.root_eq]
    exact leads.modifyAt distinctBefore undivided agree attached
  case leads =>
    intro name longer foundPath
    rw [Entries.get?_put] at foundPath
    split at foundPath
    · rename_i same
      cases foundPath
      exact ⟨tag, member, same, same ▸ (leads.append tag).concat parts⟩
    · obtain ⟨other, before, same, otherLeads⟩ := reads.leads foundPath
      exact ⟨other, mem_declarations_append before tag, same, otherLeads.append tag⟩
  case converted =>
    intro other among
    rw [declarations_concat tags declares, List.mem_append, List.mem_singleton] at among
    rcases among with before | rfl
    · exact reads.converted other before
    · rw [declaredSchema, converted]
  case declared_of_parts =>
    intro other inhabitedOther inner
    rw [partsAt_concat tags other declares] at inhabitedOther
    split at inhabitedOther
    · rename_i same
      rw [← same, here] at inner ⊢
      exact (declaredParent inner).append tag
    · exact (reads.declared_of_parts other inhabitedOther inner).append tag
  case declared_of_settings =>
    intro other set
    have silent : tag.title ≠ "propertyOpenapi" := declares ▸ by decide
    rw [settingsAt_concat_of_ne tags other silent] at set
    exact (reads.declared_of_settings other set).append tag

/-- A tag that declares nothing keeps what is known of the declarations. -/
theorem of_root_eq (reads : Reads own tags progress) (silent : tag.title ≠ "property")
    (sameDeclared : advanced.declared = progress.declared)
    (root_eq : advanced.root = schemaAt (tags ++ [tag]) [] own)
    (declared_of_settings : ∀ place, settingsAt (tags ++ [tag]) place ≠ [] →
      Declared tags place) : Reads own (tags ++ [tag]) advanced where
  root_eq := root_eq
  leads := by
    intro name path found
    rw [sameDeclared] at found
    obtain ⟨other, before, same, leads⟩ := reads.leads found
    exact ⟨other, mem_declarations_append before tag, same, leads.append tag⟩
  converted := by
    rw [declarations_concat_of_ne tags silent]
    exact reads.converted
  declared_of_parts := by
    intro place inhabited inner
    rw [partsAt_concat_of_ne tags place silent] at inhabited
    exact (reads.declared_of_parts place inhabited inner).append tag
  declared_of_settings := by
    intro place set
    exact (declared_of_settings place set).append tag

/-- A successful setting sets a keyword in the tree. -/
theorem extend (undivided : own.Undivided) (reads : Reads own tags progress)
    (distinct : DistinctNames tags) (sets : tag.title = "propertyOpenapi") (named : tag.name ≠ "")
    (success : progress.extend tag = .ok advanced) : Reads own (tags ++ [tag]) advanced := by
  obtain ⟨path, part, known, -, rfl⟩ := Progress.exists_of_extend_eq_ok named success
  obtain ⟨declaring, member, declares, leads⟩ := reads.leads known
  have silent : tag.title ≠ "property" := sets ▸ by decide
  have agree := agreeExcept_concat_setting tags sets named
  apply reads.of_root_eq silent
  · rfl
  · rw [reads.root_eq]
    apply leads.modifyAt distinct undivided agree
    have set := settingsAt_concat tags (segments tag.typeText) sets named
    rw [if_pos rfl] at set
    rw [schemaAt_eq, schemaAt_eq (tags ++ [tag]), partsAt_concat_of_ne tags _ silent,
      ← agree.map_partOf, keywordsAt, keywordsAt, set, Entries.settled_concat]
    rfl
  · intro place set
    rw [settingsAt_concat tags place sets named] at set
    split at set
    · rename_i here
      exact ⟨declaring, member, declares ▸ here⟩
    · exact reads.declared_of_settings place set

/-- A tag that says nothing leaves the tree as it is. -/
theorem silent (reads : Reads own tags progress) (noPart : tag.title ≠ "property")
    (noSetting : ∀ place, settingsAt (tags ++ [tag]) place = settingsAt tags place) :
    Reads own (tags ++ [tag]) progress := by
  apply reads.of_root_eq noPart rfl
  · rw [reads.root_eq]
    apply schemaAt_congr
    · intro place _
      rw [partsAt_concat_of_ne tags place noPart]
    · intro place _
      rw [keywordsAt, keywordsAt, noSetting]
  · intro place set
    rw [noSetting] at set
    exact reads.declared_of_settings place set

/-- A successful step takes the tag into the tree. -/
theorem apply (undivided : own.Undivided) (reads : Reads own tags progress)
    (distinct : DistinctNames (tags ++ [tag]))
    (inhabited : ∀ other ∈ declarations (tags ++ [tag]), "" ∉ segments other.name)
    (success : progress.apply tag = .ok advanced) : Reads own (tags ++ [tag]) advanced := by
  rw [Progress.apply_eq] at success
  split at success
  · rename_i declares
    exact reads.declare undivided distinct
      (inhabited tag (by simp [declarations_concat tags declares])) declares success
  · rename_i noPart
    split at success
    · rename_i sets
      by_cases named : tag.name = ""
      · rw [Progress.extend, if_pos named] at success
        cases success
        exact reads.silent noPart fun place => settingsAt_concat_of_unnamed tags place named
      · exact reads.extend undivided (distinctNames_of_concat distinct) sets named success
    · rename_i noSetting
      cases success
      exact reads.silent noPart fun place => settingsAt_concat_of_ne tags place noSetting

/-- A run without problems reads the tree of all its tags. -/
theorem foldl_next (undivided : own.Undivided) (distinct : DistinctNames tags)
    (inhabited : ∀ tag ∈ declarations tags, "" ∉ segments tag.name)
    (unproblematic : (tags.foldl Progress.next { root := own }).problems = []) :
    Reads own tags (tags.foldl Progress.next { root := own }) := by
  -- From the right, as a run ends without problems only if every step before it did.
  induction tags using List.reverseRecOn with
  | nil => exact nil undivided
  | append_singleton tags tag ih =>
      rw [List.foldl_append, List.foldl_cons, List.foldl_nil] at unproblematic ⊢
      obtain ⟨success, before⟩ := Progress.of_problems_next_eq_nil unproblematic
      have reads := ih (distinctNames_of_concat distinct)
        (fun other member => inhabited other (mem_declarations_append member tag)) before
      exact reads.apply undivided distinct inhabited success

end Reads

/-- The schema of a defined type before its declarations. -/
def definedRoot (block : Block) (typedef : Tag) : Schema :=
  { (rootSchema typedef.typeText).1 with
    title := some typedef.name
    description :=
      if block.description = "" then (rootSchema typedef.typeText).1.description
      else some block.description }

theorem undivided_definedRoot (block : Block) (typedef : Tag) :
    (definedRoot block typedef).Undivided :=
  (undivided_rootSchema typedef.typeText).annotate _ _ _ _

/-- A comment with a named type defines it, and unless there are problems the schema of
the type is the tree of the declarations. -/
theorem ofBlock?_eq_tree (block : Block) {typedef : Tag}
    (defines : definition? block = some typedef) (named : typedef.name ≠ "")
    (distinct : DistinctNames block.tags)
    (inhabited : ∀ tag ∈ declarations block.tags, "" ∉ segments tag.name) :
    ∃ defined, ofBlock? block = some (.ok defined) ∧ defined.name = typedef.name ∧
      (defined.problems = [] →
        (∀ tag ∈ declarations block.tags, propertySchema tag = .ok (declaredSchema tag)) ∧
        defined.schema = schemaAt block.tags [] (definedRoot block typedef)) := by
  rw [ofBlock?, find?_typedefTitle, defines, Option.map_some, if_neg named]
  refine ⟨_, rfl, rfl, ?_⟩
  intro unproblematic
  have reads := Reads.foldl_next (undivided_definedRoot block typedef) distinct inhabited
    unproblematic
  exact ⟨reads.converted, reads.root_eq⟩

def pairTypedef : Tag :=
  { title := "typedef", typeText := "array", name := "Pair" }

/-- An array with two items, of which the first one has a property and a keyword. -/
def pairBlock : Block where
  source := ""
  description := "Two things."
  tags :=
    [pairTypedef,
      { title := "property", name := "first" },
      { title := "propertyOpenapi", typeText := "first", name := "format", description := "old" },
      { title := "property", name := "second", optional := true },
      { title := "property", name := "first.left", description := "The left one." },
      { title := "propertyOpenapi", typeText := "first", name := "format", description := "new" }]
  problems := []

def pairSchema : Schema :=
  { typeName := some "array"
    title := some "Pair"
    description := some "Two things."
    items := .tuple
      [{ properties := some [("left", { description := some "The left one." })]
         required := ["left"]
         extensions := [("format", "new")] },
        { nullable := true }]
    minItems := some 1
    maxItems := some 2 }

/-- A word is read as the schema of its name. -/
theorem ofText_of_isWord {name : List Char} (word : TypeExpr.isWord name = true) :
    Schema.ofText (String.ofList name) = .ok (.ofName (String.ofList name)) := by
  rw [Schema.ofText, TypeExpr.parse_of_isWord word]
  simp only [Schema.ofTypeExpr]

theorem ofText_array : Schema.ofText "array" = .ok (.ofType "array") :=
  @ofText_of_isWord "array".toList (by decide)

theorem rootSchema_array : rootSchema "array" = (.ofType "array", none) := by
  rw [rootSchema, if_neg (by decide), ofText_array]

/-- The tree of the pair, in which the first item has what later tags said about it. -/
theorem ofBlock?_pairBlock :
    definition? pairBlock = some pairTypedef ∧ pairTypedef.name ≠ "" ∧
      DistinctNames pairBlock.tags ∧
      (∀ tag ∈ declarations pairBlock.tags, "" ∉ segments tag.name) ∧
      ofBlock? pairBlock = some (.ok ⟨"Pair", pairSchema, [], none⟩) ∧
      pairSchema = schemaAt pairBlock.tags [] (definedRoot pairBlock pairTypedef) := by
  have defines : definition? pairBlock = some pairTypedef := by decide
  have distinct : DistinctNames pairBlock.tags := by unfold DistinctNames; decide
  have inhabited : ∀ tag ∈ declarations pairBlock.tags, "" ∉ segments tag.name := by decide
  have evaluated : ofBlock? pairBlock = some (.ok ⟨"Pair", pairSchema, [], none⟩) := by
    rw [ofBlock?, find?_typedefTitle, defines, Option.map_some, if_neg (by decide), pairTypedef,
      rootSchema_array]
    rfl
  obtain ⟨defined, translated, -, tree⟩ :=
    ofBlock?_eq_tree pairBlock defines (by decide) distinct inhabited
  rw [evaluated] at translated
  cases translated
  exact ⟨defines, by decide, distinct, inhabited, evaluated, (tree rfl).2⟩

end Typedef

end ApiAssembly
