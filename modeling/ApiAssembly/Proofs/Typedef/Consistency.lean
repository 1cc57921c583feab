import ApiAssembly.Proofs.Typedef.Reading

/-!
# Consistent schemas

The keywords of a schema that count its parts or name them agree with the parts: what is
required is among the properties, and an array whose items have places of their own has as
many of them as it says.  Attaching a part to a consistent schema keeps it consistent, and so
does a change of a part that leaves alone whether the part is nullable.  The main statement
says that at every depth the schema of a defined type is consistent, whatever its
declarations are.
-/

namespace ApiAssembly

open Comment (Tag Block)

def Items.schemas {α : Type} : Items α → List α
  | .absent => []
  | .each schema => [schema]
  | .tuple schemas => schemas

namespace Schema

/-- The schemas directly within a schema. -/
def inner (schema : Schema) : List Schema :=
  schema.oneOf ++ schema.allOf ++ schema.items.schemas ++
    Entries.values (schema.properties.getD [])

/-- A schema is within another one, at any depth, or is that schema itself. -/
inductive Within (node : Schema) : Schema → Prop where
  | self : Within node node
  | inner {part whole : Schema} (member : part ∈ whole.inner) (within : Within node part) :
      Within node whole

/-- The number of the items that are not nullable, unless there are none. -/
def leastItems (items : List Schema) : Option Nat :=
  let count := items.countP fun item => !item.nullable
  if count = 0 then none else some count

/-- The keywords of a schema agree with its properties and items. -/
structure Consistent (schema : Schema) : Prop where
  required_nodup : schema.required.Nodup
  required_subset : schema.required ⊆ Entries.keys (schema.properties.getD [])
  placed : ∀ items, schema.items = .tuple items →
    items ≠ [] ∧ schema.typeName = some "array" ∧ schema.maxItems = some items.length ∧
      schema.minItems = leastItems items
  unplaced : (∀ items, schema.items ≠ .tuple items) →
    schema.minItems = none ∧ schema.maxItems = none

/-- A schema is consistent at every depth. -/
def ConsistentWithin (schema : Schema) : Prop :=
  ∀ node : Schema, node.Within schema → node.Consistent

/-- Something holds of a schema at every depth. -/
def Throughout (holds : Schema → Prop) (schema : Schema) : Prop :=
  ∀ node : Schema, node.Within schema → holds node

theorem throughout_iff {holds : Schema → Prop} {schema : Schema} :
    schema.Throughout holds ↔ holds schema ∧ ∀ part ∈ schema.inner, part.Throughout holds := by
  constructor
  · intro throughout
    exact ⟨throughout schema .self,
      fun part member node within => throughout node (.inner member within)⟩
  · rintro ⟨here, below⟩ node within
    cases within with
    | self => exact here
    | inner member within => exact below _ member node within

/-- What holds of a schema at every depth holds of one that has no further parts, if it holds of
that schema itself. -/
theorem Throughout.of_subset {holds : Schema → Prop} {schema other : Schema}
    (throughout : schema.Throughout holds) (here : holds other)
    (parts : other.inner ⊆ schema.inner) : other.Throughout holds :=
  throughout_iff.mpr ⟨here, fun part member => (throughout_iff.mp throughout).2 part (parts member)⟩

theorem consistentWithin_iff {schema : Schema} :
    schema.ConsistentWithin ↔
      schema.Consistent ∧ ∀ part ∈ schema.inner, part.ConsistentWithin :=
  throughout_iff

theorem leastItems_concat (items : List Schema) (item : Schema) :
    leastItems (items ++ [item]) =
      if item.nullable then leastItems items else some ((leastItems items).getD 0 + 1) := by
  cases nullable : item.nullable with
  | true => simp [leastItems, nullable]
  | false =>
      cases count : items.countP fun item => !item.nullable <;>
        simp [leastItems, nullable, count]

/-- An item counts as before if it is nullable as before. -/
theorem leastItems_set {items : List Schema} {index : Nat} {old new : Schema}
    (found : items[index]? = some old) (nullable : new.nullable = old.nullable) :
    leastItems (items.set index new) = leastItems items := by
  have counted : ∀ schemas : List Schema, (schemas.countP fun item => !item.nullable) =
      (schemas.map Schema.nullable).countP not := by
    intro schemas
    rw [List.countP_map]
    rfl
  have marks : (items.set index new).map Schema.nullable = items.map Schema.nullable := by
    obtain ⟨inside, rfl⟩ := List.getElem?_eq_some_iff.mp found
    have insideMarks : index < (items.map Schema.nullable).length := by simpa using inside
    have own : (items.map Schema.nullable)[index] = items[index].nullable :=
      List.getElem_map _
    rw [List.map_set, nullable, ← own, List.set_getElem_self]
  rw [leastItems, leastItems, counted, counted, marks]

theorem leastItems_le {items : List Schema} {least : Nat}
    (counted : leastItems items = some least) : least ≤ items.length := by
  simp only [leastItems] at counted
  split at counted
  · cases counted
  · cases counted
    exact List.countP_le_length

/-- A schema without parts of its own is consistent. -/
theorem Undivided.consistent {schema : Schema} (undivided : schema.Undivided)
    (maxItems : schema.maxItems = none) : schema.Consistent where
  required_nodup := by simp [undivided.required_eq]
  required_subset := by simp [undivided.required_eq]
  placed := fun items placed => absurd placed (undivided.items_ne_tuple items)
  unplaced := fun _ => ⟨undivided.minItems_eq, maxItems⟩

theorem Converted.maxItems_eq {schema : Schema} (converted : schema.Converted) :
    schema.maxItems = none := by
  cases converted <;> rfl

theorem Converted.nullable_eq {schema : Schema} (converted : schema.Converted) :
    schema.nullable = false := by
  cases converted <;> rfl

/-- The schemas within the schema of a type have the forms of such schemas. -/
theorem Converted.inner {schema : Schema} (converted : schema.Converted) :
    ∀ part ∈ schema.inner, part.Converted := by
  cases converted with
  | type | reference | strings | numbers =>
      simp [Schema.inner, ofType, referenceTo, ofStrings, ofNumbers, Items.schemas, Entries.values]
  | alternatives each | parts each => simpa [Schema.inner, Items.schemas, Entries.values] using each
  | record distinct each => simpa [Schema.inner, Items.schemas] using each
  | array element =>
      simpa [Schema.inner, arrayOf, Items.schemas, Entries.values] using element

theorem Converted.throughout {schema : Schema} (converted : schema.Converted) :
    schema.Throughout Converted := by
  intro node within
  induction within with
  | self => exact converted
  | inner member _ ih => exact ih (converted.inner _ member)

theorem Converted.consistentWithin {schema : Schema} (converted : schema.Converted) :
    schema.ConsistentWithin := by
  intro node within
  have form := converted.throughout node within
  exact form.undivided.consistent form.maxItems_eq

/-- What is said about a schema as a whole has nothing to do with its parts. -/
theorem ConsistentWithin.annotate {schema : Schema} (consistent : schema.ConsistentWithin)
    (title description : Option String) (nullable : Bool) (defaultValue : Option Value)
    (extensions : Entries String) :
    { schema with title, description, nullable, defaultValue, extensions }.ConsistentWithin := by
  have here := (consistentWithin_iff.mp consistent).1
  refine Throughout.of_subset consistent ?_ (List.Subset.refl _)
  exact ⟨here.required_nodup, here.required_subset, here.placed, here.unplaced⟩

theorem mem_inner_iff {schema part : Schema} :
    part ∈ schema.inner ↔ part ∈ schema.oneOf ∨ part ∈ schema.allOf ∨
      part ∈ schema.items.schemas ∨ part ∈ Entries.values (schema.properties.getD []) := by
  simp only [inner, List.mem_append, or_assoc]

theorem exists_of_item? {schema part : Schema} {index : Nat}
    (found : schema.item? index = some part) :
    ∃ items, schema.items = .tuple items ∧ items[index]? = some part := by
  unfold item? at found
  split at found
  · rename_i items present
    exact ⟨items, present, found⟩
  · cases found

theorem mem_inner_of_part? {schema part : Schema} {step : Step}
    (found : schema.part? step = some part) : part ∈ schema.inner := by
  rw [mem_inner_iff]
  cases step with
  | property name =>
      obtain ⟨properties, present, inside⟩ := Option.bind_eq_some_iff.mp found
      rw [present]
      exact .inr (.inr (.inr (List.mem_map.mpr ⟨(name, part), Entries.mem_of_get? inside, rfl⟩)))
  | item index =>
      obtain ⟨items, present, inside⟩ := exists_of_item? found
      rw [present]
      exact .inr (.inr (.inl (List.mem_of_getElem? inside)))

@[simp]
theorem nullable_withPart (schema : Schema) (step : Step) (part : Schema) :
    (schema.withPart step part).nullable = schema.nullable := by
  unfold withPart
  split
  · rfl
  · split <;> rfl

theorem Throughout.at? {holds : Schema → Prop} {schema found : Schema} {path : List Step}
    (throughout : schema.Throughout holds) (present : schema.at? path = some found) :
    found.Throughout holds := by
  induction path generalizing schema with
  | nil =>
      cases present
      exact throughout
  | cons step path ih =>
      obtain ⟨part, here, later⟩ := Option.bind_eq_some_iff.mp present
      exact ih ((throughout_iff.mp throughout).2 part (mem_inner_of_part? here)) later

theorem withPart_property {schema : Schema} {properties : Entries Schema}
    (present : schema.properties = some properties) (name : String) (part : Schema) :
    schema.withPart (.property name) part =
      { schema with properties := some (Entries.update name (fun _ => part) properties) } := by
  rw [withPart, present, Option.map_some]

theorem withPart_item {schema : Schema} {items : List Schema}
    (present : schema.items = .tuple items) (index : Nat) (part : Schema) :
    schema.withPart (.item index) part =
      { schema with items := .tuple (items.set index part) } := by
  simp only [withPart, present]

/-- What is within a schema with a new part is that part or was there before. -/
theorem eq_or_mem_inner_of_withPart {schema old new part : Schema} {step : Step}
    (found : schema.part? step = some old) (member : part ∈ (schema.withPart step new).inner) :
    part = new ∨ part ∈ schema.inner := by
  cases step with
  | property name =>
      obtain ⟨properties, present, -⟩ := Option.bind_eq_some_iff.mp found
      rw [withPart_property present, mem_inner_iff] at member
      rw [mem_inner_iff, present]
      rcases member with inOneOf | inAllOf | inItems | inProperties
      · exact .inr (.inl inOneOf)
      · exact .inr (.inr (.inl inAllOf))
      · exact .inr (.inr (.inr (.inl inItems)))
      · exact (Entries.eq_or_mem_of_mem_values_update inProperties).imp_right
          fun before => .inr (.inr (.inr before))
  | item index =>
      obtain ⟨items, present, -⟩ := exists_of_item? found
      rw [withPart_item present, mem_inner_iff] at member
      rw [mem_inner_iff, present]
      rcases member with inOneOf | inAllOf | inItems | inProperties
      · exact .inr (.inl inOneOf)
      · exact .inr (.inr (.inl inAllOf))
      · exact (List.mem_or_eq_of_mem_set inItems).symm.imp_right
          fun before => .inr (.inr (.inl before))
      · exact .inr (.inr (.inr (.inr inProperties)))

/-- A part can be replaced by one that is nullable as it was. -/
theorem Consistent.withPart {schema : Schema} (consistent : schema.Consistent) {step : Step}
    {old new : Schema} (found : schema.part? step = some old)
    (nullable : new.nullable = old.nullable) : (schema.withPart step new).Consistent := by
  cases step with
  | property name =>
      obtain ⟨properties, present, -⟩ := Option.bind_eq_some_iff.mp found
      rw [withPart_property present]
      refine ⟨consistent.required_nodup, ?_, consistent.placed, consistent.unplaced⟩
      simpa [present] using consistent.required_subset
  | item index =>
      obtain ⟨items, present, inside⟩ := exists_of_item? found
      obtain ⟨inhabited, array, maxItems, minItems⟩ := consistent.placed items present
      rw [withPart_item present]
      refine ⟨consistent.required_nodup, consistent.required_subset, ?_, ?_⟩
      · intro others placed
        obtain rfl := Items.tuple.inj placed
        refine ⟨by simpa using inhabited, array, by simpa using maxItems, ?_⟩
        rw [leastItems_set inside nullable]
        exact minItems
      · intro unplaced
        exact absurd rfl (unplaced _)

theorem Throughout.withPart {holds : Schema → Prop} {schema old new : Schema} {step : Step}
    (throughout : schema.Throughout holds) (found : schema.part? step = some old)
    (here : holds (schema.withPart step new)) (newThroughout : new.Throughout holds) :
    (schema.withPart step new).Throughout holds := by
  refine throughout_iff.mpr ⟨here, ?_⟩
  intro part member
  rcases eq_or_mem_inner_of_withPart found member with rfl | before
  · exact newThroughout
  · exact (throughout_iff.mp throughout).2 part before

/-- Where a part may be replaced by one that agrees with it, a change at the end of a path to
what agrees with the schema there leaves whatever holds at every depth. -/
theorem Throughout.modifyAt {holds : Schema → Prop} {agrees : Schema → Schema → Prop}
    (replace : ∀ {whole old new : Schema} {step : Step}, holds whole →
      whole.part? step = some old → agrees old new →
        holds (whole.withPart step new) ∧ agrees whole (whole.withPart step new))
    {change : Schema → Schema} {schema old : Schema} {path : List Step}
    (throughout : schema.Throughout holds) (found : schema.at? path = some old)
    (agree : agrees old (change old)) (changed : (change old).Throughout holds) :
    (schema.modifyAt change path).Throughout holds ∧
      agrees schema (schema.modifyAt change path) := by
  induction path generalizing schema with
  | nil =>
      obtain rfl := Option.some.inj found
      exact ⟨changed, agree⟩
  | cons step path ih =>
      obtain ⟨part, present, found⟩ := Option.bind_eq_some_iff.mp found
      obtain ⟨here, below⟩ := throughout_iff.mp throughout
      obtain ⟨later, partAgrees⟩ := ih (below part (mem_inner_of_part? present)) found
      obtain ⟨replaced, wholeAgrees⟩ := replace here present partAgrees
      rw [Schema.modifyAt, present]
      exact ⟨throughout.withPart present replaced later, wholeAgrees⟩

/-- A change at the end of a path that keeps the schema there consistent, and nullable or not
as it was, keeps the whole schema consistent. -/
theorem ConsistentWithin.modifyAt {change : Schema → Schema} {schema old : Schema}
    {path : List Step} (consistent : schema.ConsistentWithin)
    (found : schema.at? path = some old) (nullable : (change old).nullable = old.nullable)
    (changed : (change old).ConsistentWithin) :
    (schema.modifyAt change path).ConsistentWithin := by
  have replace : ∀ {whole old new : Schema} {step : Step}, whole.Consistent →
      whole.part? step = some old → new.nullable = old.nullable →
        (whole.withPart step new).Consistent ∧
          (whole.withPart step new).nullable = whole.nullable := by
    intro whole old new step here present same
    exact ⟨here.withPart present same, nullable_withPart whole step new⟩
  exact (@Throughout.modifyAt Consistent (fun old new => new.nullable = old.nullable) replace
    _ _ _ _ consistent found nullable changed).1

/-- The parts of a schema with a further item are the item and the parts from before. -/
theorem eq_or_mem_inner_of_attachItem {parent property part : Schema} {items : List Schema}
    {optional : Bool} (placed : Typedef.placedItems? parent.items = some items)
    (member : part ∈ (Typedef.attachItem property optional items parent).inner) :
    part = property ∨ part ∈ parent.inner := by
  have before : items ⊆ parent.items.schemas := by
    rcases Typedef.placedItems?_eq_some_iff.mp placed with ⟨-, rfl⟩ | present
    · exact List.nil_subset _
    · rw [present]
      exact List.Subset.refl _
  rw [mem_inner_iff] at member
  rw [mem_inner_iff]
  rcases member with inOneOf | inAllOf | inItems | inProperties
  · exact .inr (.inl inOneOf)
  · exact .inr (.inr (.inl inAllOf))
  · rcases List.mem_append.mp inItems with old | new
    · exact .inr (.inr (.inr (.inl (before old))))
    · exact .inl (List.mem_singleton.mp new)
  · exact .inr (.inr (.inr (.inr inProperties)))

/-- The parts of a schema with a further property are the property and the parts from
before. -/
theorem eq_or_mem_inner_of_attachProperty {parent property part : Schema} {name : String}
    {optional : Bool}
    (member : part ∈ (Typedef.attachProperty name property optional parent).inner) :
    part = property ∨ part ∈ parent.inner := by
  rw [mem_inner_iff] at member
  rw [mem_inner_iff]
  rcases member with inOneOf | inAllOf | inItems | inProperties
  · exact .inr (.inl inOneOf)
  · exact .inr (.inr (.inl inAllOf))
  · exact .inr (.inr (.inr (.inl inItems)))
  · exact (Entries.eq_or_mem_of_mem_values_put inProperties).imp_right
      fun before => .inr (.inr (.inr before))

/-- A further item of an array counts if it is not nullable. -/
theorem ConsistentWithin.attachItem {parent property : Schema} {items : List Schema}
    (consistent : parent.ConsistentWithin) (array : parent.isArray = true)
    (placed : Typedef.placedItems? parent.items = some items)
    (propertyConsistent : property.ConsistentWithin) :
    (Typedef.attachItem property property.nullable items parent).ConsistentWithin := by
  obtain ⟨here, below⟩ := consistentWithin_iff.mp consistent
  have before : parent.minItems = leastItems items := by
    rcases Typedef.placedItems?_eq_some_iff.mp placed with ⟨absent, rfl⟩ | present
    · exact (here.unplaced (by simp [absent])).1
    · exact (here.placed items present).2.2.2
  refine consistentWithin_iff.mpr ⟨?_, ?_⟩
  · refine ⟨here.required_nodup, here.required_subset, ?_, ?_⟩
    · intro others placedNow
      obtain rfl := Items.tuple.inj placedNow
      refine ⟨by simp, isArray_iff.mp array, by simp [Typedef.attachItem], ?_⟩
      rw [leastItems_concat, ← before]
      rfl
    · intro unplaced
      exact absurd rfl (unplaced _)
  · intro part member
    rcases eq_or_mem_inner_of_attachItem placed member with rfl | old
    · exact propertyConsistent
    · exact below part old

/-- A further property is required at most once, and only when it is there. -/
theorem ConsistentWithin.attachProperty {parent property : Schema}
    (consistent : parent.ConsistentWithin) (noArray : parent.isArray = false) (name : String)
    (optional : Bool) (propertyConsistent : property.ConsistentWithin) :
    (Typedef.attachProperty name property optional parent).ConsistentWithin := by
  obtain ⟨here, below⟩ := consistentWithin_iff.mp consistent
  have unplaced : ∀ items, parent.items ≠ .tuple items := by
    intro items placed
    exact isArray_eq_false_iff.mp noArray (here.placed items placed).2.1
  have kept : Entries.keys (parent.properties.getD []) ⊆
      Entries.keys (Entries.put name property (parent.properties.getD [])) := by
    rw [Entries.keys_put]
    split <;> simp
  have present : name ∈ Entries.keys (Entries.put name property (parent.properties.getD [])) :=
    Entries.mem_keys_of_get? (Entries.get?_put_self name property _)
  refine consistentWithin_iff.mpr ⟨?_, ?_⟩
  · refine ⟨?_, ?_, fun items placed => absurd placed (unplaced items),
      fun _ => here.unplaced unplaced⟩
    · simp only [Typedef.attachProperty]
      split
      · exact here.required_nodup
      · rename_i further
        have fresh : name ∉ parent.required := by simp_all
        exact (List.perm_append_singleton name parent.required).nodup_iff.mpr
          (List.nodup_cons.mpr ⟨fresh, here.required_nodup⟩)
    · simp only [Typedef.attachProperty]
      split
      · exact List.Subset.trans here.required_subset kept
      · exact List.append_subset.mpr
          ⟨List.Subset.trans here.required_subset kept, by simpa using present⟩
  · intro part member
    rcases eq_or_mem_inner_of_attachProperty member with rfl | before
    · exact propertyConsistent
    · exact below part before

theorem get?_keyword (key name : String) (value : Option Value) :
    Entries.get? name (keyword key value) = if key = name then value else none := by
  cases value <;> simp [keyword, Entries.get?]

theorem get?_listKeyword (key name : String) (items : List Value) :
    Entries.get? name (listKeyword key items) =
      if key = name ∧ items ≠ [] then some (.array items) else none := by
  cases items <;> simp [listKeyword, Entries.get?]

/-- A list of required properties is written only if there are any. -/
theorem required_of_member?_toValue {schema : Schema} {names : List Value}
    (written : schema.toValue.member? "required" = some (.array names)) :
    names = schema.required.map .string ∧ names ≠ [] := by
  obtain ⟨typeName, reference, title, description, enumeration, oneOf, allOf, items, minItems,
    maxItems, properties, required, nullable, defaultValue, extensions⟩ := schema
  have stored : ∀ fixed : Members, extensions.foldl (fun members extension =>
      Entries.put extension.1 (.string extension.2) members) fixed =
        Entries.putAll (extensions.map fun extension => (extension.1, .string extension.2))
          fixed := by
    intro fixed
    rw [Entries.putAll, List.foldl_map]
  simp only [toValue, Value.member?_object, stored, Entries.get?_putAll, Option.or_eq_some_iff]
    at written
  rcases written with set | ⟨-, own⟩
  · have member := Entries.mem_of_get? set
    simp at member
  · have kept : required ≠ [] ∧ required.map Value.string = names := by
      simpa [Entries.get?_append, get?_keyword, get?_listKeyword] using own
    obtain ⟨something, rfl⟩ := kept
    exact ⟨rfl, by simpa using something⟩

end Schema

namespace Typedef

open Schema (ConsistentWithin Throughout)

theorem consistentWithin_of_propertySchema {tag : Tag} {schema : Schema}
    (success : propertySchema tag = .ok schema) :
    schema.ConsistentWithin ∧ schema.nullable = tag.optional := by
  obtain ⟨plain, converted, rfl⟩ := exists_of_propertySchema_eq_ok success
  constructor
  · exact converted.consistentWithin.annotate _ _ _ _ _
  · simp [converted.nullable_eq]

namespace Progress

variable {progress advanced : Progress} {tag : Tag}

/-- A declaration that succeeds keeps the schema consistent. -/
theorem consistentWithin_declare (consistent : progress.root.ConsistentWithin)
    (success : progress.declare tag = .ok advanced) : advanced.root.ConsistentWithin := by
  obtain ⟨path, property, parent, step, attach, -, converts, found, attaches, rfl⟩ :=
    exists_of_declare_eq_ok success
  obtain ⟨propertyConsistent, nullable⟩ := consistentWithin_of_propertySchema converts
  have parentConsistent : parent.ConsistentWithin := Throughout.at? consistent found
  refine consistent.modifyAt found ?_ ?_
  · cases attaches <;> rfl
  · cases attaches with
    | item array placed =>
        rw [← nullable]
        exact parentConsistent.attachItem array placed propertyConsistent
    | property noArray =>
        exact parentConsistent.attachProperty noArray _ _ propertyConsistent

/-- A keyword that is set has nothing to do with parts. -/
theorem consistentWithin_extend (consistent : progress.root.ConsistentWithin)
    (success : progress.extend tag = .ok advanced) : advanced.root.ConsistentWithin := by
  by_cases named : tag.name = ""
  · rw [extend, if_pos named] at success
    cases success
    exact consistent
  · obtain ⟨path, part, -, found, rfl⟩ := exists_of_extend_eq_ok named success
    have partConsistent : part.ConsistentWithin := Throughout.at? consistent found
    exact consistent.modifyAt found rfl (partConsistent.annotate _ _ _ _ _)

theorem consistentWithin_next (consistent : progress.root.ConsistentWithin) (tag : Tag) :
    (progress.next tag).root.ConsistentWithin := by
  cases outcome : progress.apply tag with
  | error error => simpa [next, outcome] using consistent
  | ok advanced =>
      have advances : progress.next tag = advanced := by rw [next, outcome]
      rw [advances]
      rw [apply_eq] at outcome
      split at outcome
      · exact consistentWithin_declare consistent outcome
      · split at outcome
        · exact consistentWithin_extend consistent outcome
        · cases outcome
          exact consistent

/-- Whatever the tags are, a run over them keeps the schema consistent. -/
theorem consistentWithin_foldl_next (consistent : progress.root.ConsistentWithin)
    (tags : List Tag) : (tags.foldl Progress.next progress).root.ConsistentWithin := by
  induction tags generalizing progress with
  | nil => exact consistent
  | cons tag tags ih => exact ih (consistentWithin_next consistent tag)

end Progress

/-- At every depth, the schema of the type that a comment defines is consistent: what it
requires is written only if there is something, without repetitions and among the
properties; items with places of their own are the items of an array, which has as many as
it says and requires those that are not nullable; and no other schema counts items. -/
theorem consistent_of_ofBlock? (block : Block) {defined : Typedef}
    (translated : ofBlock? block = some (.ok defined)) {node : Schema}
    (within : node.Within defined.schema) :
    node.Consistent ∧
      (∀ names, node.toValue.member? "required" = some (.array names) →
        names = node.required.map .string ∧ names ≠ []) ∧
      ∀ least most, node.minItems = some least → node.maxItems = some most → least ≤ most := by
  have root : defined.schema.ConsistentWithin := by
    obtain ⟨typedef, -, outcome⟩ := Option.map_eq_some_iff.mp translated
    split at outcome
    · cases outcome
    · cases outcome
      exact Progress.consistentWithin_foldl_next
        ((converted_rootSchema typedef.typeText).consistentWithin.annotate _ _ _ _ _) block.tags
  have consistent := root node within
  refine ⟨consistent, fun names written => Schema.required_of_member?_toValue written, ?_⟩
  intro least most minItems maxItems
  by_cases unplaced : ∀ items, node.items ≠ .tuple items
  · rw [(consistent.unplaced unplaced).2] at maxItems
    cases maxItems
  · push Not at unplaced
    obtain ⟨items, placed⟩ := unplaced
    obtain ⟨-, -, count, counted⟩ := consistent.placed items placed
    rw [counted] at minItems
    obtain rfl := Option.some.inj (count.symm.trans maxItems)
    exact Schema.leastItems_le minItems

/-- A pair with an item that is declared again behind the second one, a part of the second
item that is declared twice, and a part of an item that there is not. -/
def repeatingBlock : Block where
  source := ""
  description := ""
  tags :=
    [{ title := "typedef", typeText := "array", name := "Pair" },
      { title := "property", name := "first" },
      { title := "property", name := "second", optional := true },
      { title := "property", name := "second.left" },
      { title := "property", name := "third.left" },
      { title := "property", name := "second.left", optional := true },
      { title := "property", name := "first", description := "Again." }]
  problems := []

def repeatedSecond : Schema :=
  { properties := some [("left", { nullable := true })]
    required := ["left"]
    nullable := true }

def repeatedType : Typedef where
  name := "Pair"
  schema :=
    { typeName := some "array"
      title := some "Pair"
      items := .tuple [{}, repeatedSecond, { description := some "Again." }]
      minItems := some 2
      maxItems := some 3 }
  problems := [.undeclaredParent "third.left" "third"]
  rootTypeError := none

/-- The second item of the repeating pair is consistent, although what it requires has become
nullable, and so is the pair. -/
theorem consistent_repeatedType :
    ofBlock? repeatingBlock = some (.ok repeatedType) ∧
      repeatedSecond.Within repeatedType.schema ∧ repeatedSecond.Consistent ∧
      repeatedType.schema.Consistent ∧
      ∀ least most, repeatedType.schema.minItems = some least →
        repeatedType.schema.maxItems = some most → least ≤ most := by
  have translated : ofBlock? repeatingBlock = some (.ok repeatedType) := by
    have defines : definition? repeatingBlock =
        some { title := "typedef", typeText := "array", name := "Pair" } := by decide
    rw [ofBlock?, find?_typedefTitle, defines, Option.map_some, if_neg (by decide),
      rootSchema_array]
    rfl
  have member : repeatedSecond ∈ repeatedType.schema.inner := by
    simp [Schema.inner, repeatedType, Items.schemas]
  have within : repeatedSecond.Within repeatedType.schema := .inner member .self
  obtain ⟨second, -⟩ := consistent_of_ofBlock? repeatingBlock translated within
  obtain ⟨pair, -, bounds⟩ := consistent_of_ofBlock? repeatingBlock translated .self
  exact ⟨translated, within, second, pair, bounds⟩

end Typedef

end ApiAssembly
