import ApiAssembly.Proofs.Typedef.Leading

/-!
# Single declarations

What a declaration and a setting do to the progress when they succeed, and how a run
over tags without problems decomposes into successful steps.
-/

namespace ApiAssembly

open Comment (Tag Block)

namespace Typedef

/-- The tag that defines the type of a comment: the first one with the title `typedef`. -/
def definition? (block : Block) : Option Tag :=
  block.tags.find? fun tag => tag.title = "typedef"

theorem find?_typedefTitle (block : Block) : block.find? typedefTitle = definition? block := rfl

/-- The items that have places of their own, unless all items are alike. -/
def placedItems? : Items Schema → Option (List Schema)
  | .absent => some []
  | .each _ => none
  | .tuple schemas => some schemas

theorem placedItems?_eq_some_iff {items : Items Schema} {schemas : List Schema} :
    placedItems? items = some schemas ↔
      (items = .absent ∧ schemas = []) ∨ items = .tuple schemas := by
  cases items <;> simp [placedItems?, eq_comm]

/-- How a part is attached to a parent: the step to the part and the change of the parent. -/
inductive Attaches (tag : Tag) (property parent : Schema) :
    Step → (Schema → Schema) → Prop where
  | item (array : parent.isArray = true) {schemas : List Schema}
      (placed : placedItems? parent.items = some schemas) :
    Attaches tag property parent (.item schemas.length) (attachItem property tag.optional schemas)
  | property (noArray : parent.isArray = false) :
    Attaches tag property parent (.property (splitName tag.name).2)
      (attachProperty (splitName tag.name).2 property tag.optional)

/-- The placed items of an array with parts are the schemas of these. -/
theorem eq_map_of_placedItems? {own : Schema} {parts : List Part} (undivided : own.Undivided)
    (array : own.isArray = true) {schemas : List Schema}
    (placed : placedItems? (own.withParts parts).items = some schemas) :
    schemas = parts.map Part.schema := by
  cases parts with
  | nil =>
      rw [Schema.withParts_nil] at placed
      rcases placedItems?_eq_some_iff.mp placed with ⟨-, rfl⟩ | items
      · rfl
      · exact absurd items (undivided.items_ne_tuple schemas)
  | cons part rest =>
      rw [Schema.withParts_of_isArray array (by simp)] at placed
      exact (Option.some.inj placed).symm

/-- A part is attached behind the parts that are there. -/
theorem Attaches.eq_withParts_concat {tag : Tag} {property own : Schema} {parts : List Part}
    {extensions : Entries String} {step : Step} {attach : Schema → Schema}
    (undivided : own.Undivided)
    (attaches : Attaches tag property ((own.withParts parts).withExtensions extensions) step
      attach)
    (distinct : (parts.map Part.leaf ++ [(splitName tag.name).2]).Nodup) :
    step = own.stepTo parts.length (splitName tag.name).2 ∧
      attach ((own.withParts parts).withExtensions extensions) =
        (own.withParts (parts ++ [⟨(splitName tag.name).2, tag.optional, property⟩])).withExtensions
          extensions := by
  cases attaches with
  | item array placed =>
      rw [Schema.isArray_withExtensions, Schema.isArray_withParts] at array
      obtain rfl := eq_map_of_placedItems? undivided array placed
      have attached := Schema.attachItem_withParts undivided array parts
        ⟨(splitName tag.name).2, tag.optional, property⟩
      constructor
      · rw [Schema.stepTo, if_pos (Schema.isArray_iff.mp array), List.length_map]
      · exact congrArg (Schema.withExtensions · extensions) attached
  | property noArray =>
      rw [Schema.isArray_withExtensions, Schema.isArray_withParts] at noArray
      have attached := Schema.attachProperty_withParts undivided noArray parts
        ⟨(splitName tag.name).2, tag.optional, property⟩ distinct
      constructor
      · rw [Schema.stepTo, if_neg (Schema.isArray_eq_false_iff.mp noArray)]
      · exact congrArg (Schema.withExtensions · extensions) attached

theorem eq_ok_of_mapError_eq_ok {ε δ α : Type} {change : ε → δ} {outcome : Except ε α}
    {value : α} (success : outcome.mapError change = .ok value) : outcome = .ok value := by
  cases outcome with
  | error error => cases success
  | ok result => exact congrArg Except.ok (Except.ok.inj success)

theorem mapError_ok_bind {ε δ α β : Type} (change : ε → δ) (value : α) (next : α → Except δ β) :
    ((Except.ok value).mapError change >>= next) = next value := rfl

namespace Progress

/-- A declaration that finds its parent and a way to attach its part succeeds. -/
theorem declare_eq_ok {progress : Progress} {tag : Tag} {path : List Step}
    {property parent : Schema} {step : Step} {attach : Schema → Schema}
    (declared : progress.parentPath? (splitName tag.name).1 = some path)
    (converts : propertySchema tag = .ok property)
    (found : progress.root.at? path = some parent)
    (attaches : Attaches tag property parent step attach) :
    progress.declare tag = .ok
      { progress with
        root := progress.root.modifyAt attach path
        declared := Entries.put tag.name (path ++ [step]) progress.declared } := by
  rw [declare]
  simp only [declared, converts, mapError_ok_bind, found]
  cases attaches with
  | property noArray =>
      rw [if_neg (by simp [noArray])]
      rfl
  | item array placed =>
      rw [if_pos array]
      cases items : parent.items with
      | each schema =>
          rw [items] at placed
          cases placed
      | absent =>
          rw [items] at placed
          cases placed
          rfl
      | tuple schemas =>
          rw [items] at placed
          cases placed
          rfl

/-- Everything that a declaration does when it succeeds. -/
theorem exists_of_declare_eq_ok {progress advanced : Progress} {tag : Tag}
    (success : progress.declare tag = .ok advanced) :
    ∃ path property parent step attach,
      progress.parentPath? (splitName tag.name).1 = some path ∧
      propertySchema tag = .ok property ∧
      progress.root.at? path = some parent ∧
      Attaches tag property parent step attach ∧
      advanced =
        { progress with
          root := progress.root.modifyAt attach path
          declared := Entries.put tag.name (path ++ [step]) progress.declared } := by
  rw [declare] at success
  cases found : progress.parentPath? (splitName tag.name).1 with
  | none =>
      simp only [found] at success
      cases success
  | some path =>
      simp only [found] at success
      obtain ⟨property, mapped, attached⟩ := exists_of_bind_eq_ok success
      have converted := eq_ok_of_mapError_eq_ok mapped
      cases present : progress.root.at? path with
      | none =>
          simp only [present] at attached
          cases attached
      | some parent =>
          simp only [present] at attached
          cases array : parent.isArray with
          | false =>
              rw [if_neg (by simp [array])] at attached
              cases attached
              exact ⟨path, property, parent, _, _, rfl, converted, present, .property array, rfl⟩
          | true =>
              rw [if_pos array] at attached
              cases items : parent.items with
              | each schema =>
                  simp only [items] at attached
                  cases attached
              | absent =>
                  simp only [items] at attached
                  cases attached
                  exact ⟨path, property, parent, _, _, rfl, converted, present,
                    .item array (by rw [items, placedItems?]), rfl⟩
              | tuple schemas =>
                  simp only [items] at attached
                  cases attached
                  exact ⟨path, property, parent, _, _, rfl, converted, present,
                    .item array (by rw [items, placedItems?]), rfl⟩

/-- A setting that finds its part succeeds. -/
theorem extend_eq_ok {progress : Progress} {tag : Tag} (named : tag.name ≠ "") {path : List Step}
    {part : Schema} (declared : Entries.get? tag.typeText progress.declared = some path)
    (found : progress.root.at? path = some part) :
    progress.extend tag = .ok
      { progress with
        root := progress.root.modifyAt (fun part => part.withExtensions
          (Entries.put tag.name tag.description part.extensions)) path } := by
  rw [extend, if_neg named]
  simp only [declared, found]
  rfl

/-- Everything that a setting does when it succeeds. -/
theorem exists_of_extend_eq_ok {progress advanced : Progress} {tag : Tag} (named : tag.name ≠ "")
    (success : progress.extend tag = .ok advanced) :
    ∃ path part,
      Entries.get? tag.typeText progress.declared = some path ∧
      progress.root.at? path = some part ∧
      advanced =
        { progress with
          root := progress.root.modifyAt (fun part => part.withExtensions
            (Entries.put tag.name tag.description part.extensions)) path } := by
  rw [extend, if_neg named] at success
  cases found : Entries.get? tag.typeText progress.declared with
  | none =>
      simp only [found] at success
      cases success
  | some path =>
      simp only [found] at success
      cases present : progress.root.at? path with
      | none =>
          simp only [present] at success
          cases success
      | some part =>
          simp only [present] at success
          cases success
          exact ⟨path, part, rfl, present, rfl⟩

/-- Tags with the title `property` declare, and those with the title `propertyOpenapi` set. -/
theorem apply_eq (progress : Progress) (tag : Tag) :
    progress.apply tag =
      if tag.title = "property" then progress.declare tag
      else if tag.title = "propertyOpenapi" then progress.extend tag
      else .ok progress := rfl

theorem apply_of_declares {progress : Progress} {tag : Tag} (declares : tag.title = "property") :
    progress.apply tag = progress.declare tag := by
  rw [apply_eq, if_pos declares]

theorem apply_of_sets {progress : Progress} {tag : Tag} (sets : tag.title = "propertyOpenapi") :
    progress.apply tag = progress.extend tag := by
  have undeclaring : tag.title ≠ "property" := sets ▸ by decide
  rw [apply_eq, if_neg undeclaring, if_pos sets]

theorem problems_of_apply_eq_ok {progress advanced : Progress} {tag : Tag}
    (success : progress.apply tag = .ok advanced) : advanced.problems = progress.problems := by
  rw [apply_eq] at success
  split at success
  · obtain ⟨_, _, _, _, _, -, -, -, -, rfl⟩ := exists_of_declare_eq_ok success
    rfl
  · split at success
    · by_cases named : tag.name = ""
      · rw [extend, if_pos named] at success
        cases success
        rfl
      · obtain ⟨_, _, -, -, rfl⟩ := exists_of_extend_eq_ok named success
        rfl
    · cases success
      rfl

/-- A step that leaves no problem behind succeeded, and there was none before it. -/
theorem of_problems_next_eq_nil {progress : Progress} {tag : Tag}
    (unproblematic : (progress.next tag).problems = []) :
    progress.apply tag = .ok (progress.next tag) ∧ progress.problems = [] := by
  cases outcome : progress.apply tag with
  | error error => simp [next, outcome] at unproblematic
  | ok advanced =>
      have advances : progress.next tag = advanced := by rw [next, outcome]
      rw [advances] at unproblematic ⊢
      exact ⟨rfl, (problems_of_apply_eq_ok outcome).symm.trans unproblematic⟩

end Progress

end Typedef

end ApiAssembly
