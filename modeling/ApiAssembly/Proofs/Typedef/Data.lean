import ApiAssembly.Proofs.Json.Reading
import ApiAssembly.Proofs.Typedef.Consistency

/-!
# Schemas as data

The value of a defined type's schema can be held by any document: the keywords of every
schema within it are distinct, and its numbers are those of literals, of defaults, and counts
of items.  A declaration adds at most one item to an array, so no count exceeds the number of
the tags.
-/

namespace ApiAssembly

open Comment (Tag Block)
open Decimal (Binary64)

theorem Value.isData_null : Value.null.IsData :=
  ⟨.null, .null⟩

theorem Value.isData_bool (value : Bool) : (Value.bool value).IsData :=
  ⟨.bool value, .bool value⟩

theorem Value.isData_string (text : String) : (Value.string text).IsData :=
  ⟨.string text, .string text⟩

theorem Value.isData_number {number : Number} (fits : number.Fits) :
    (Value.number number).IsData :=
  ⟨.number number, .number fits⟩

namespace Schema

variable {schema : Schema} {limit : Nat}

/-- What a schema says itself is data, and counts at most a number of items. -/
structure Records (limit : Nat) (schema : Schema) : Prop where
  enumeration : ∀ value ∈ schema.enumeration, value.IsData
  defaultValue : ∀ value ∈ schema.defaultValue, value.IsData
  distinct : (Entries.keys (schema.properties.getD [])).Nodup
  items : ∀ items, schema.items = .tuple items → items.length ≤ limit
  minItems : ∀ count ∈ schema.minItems, count ≤ limit
  maxItems : ∀ count ∈ schema.maxItems, count ≤ limit

theorem Records.mono {larger : Nat} (records : schema.Records limit) (le : limit ≤ larger) :
    schema.Records larger where
  enumeration := records.enumeration
  defaultValue := records.defaultValue
  distinct := records.distinct
  items := fun items placed => (records.items items placed).trans le
  minItems := fun count stated => (records.minItems count stated).trans le
  maxItems := fun count stated => (records.maxItems count stated).trans le

section Values

theorem isData_literalValue (number : Binary64) : (literalValue number).IsData := by
  rw [literalValue]
  split
  next whole =>
    have small : number.toInt.natAbs < wholeLimit := by
      simpa using (Bool.and_eq_true_iff.mp whole).2
    rw [wholeLimit] at small
    exact Value.isData_number ⟨by omega, by omega⟩
  next =>
    split
    next finite => exact Value.isData_number finite
    next => exact Value.isData_null

/-- A keyword is a member of its name. -/
theorem keys_keyword_sublist (key : String) (value : Option Value) :
    (Entries.keys (keyword key value)).Sublist [key] := by
  cases value with
  | none => exact List.nil_sublist _
  | some value => exact List.Sublist.refl _

theorem keys_listKeyword_sublist (key : String) (items : List Value) :
    (Entries.keys (listKeyword key items)).Sublist [key] := by
  rw [listKeyword]
  split
  · exact List.nil_sublist _
  · exact List.Sublist.refl _

theorem forall_mem_keyword {key : String} {value : Option Value}
    (own : ∀ inner ∈ value, inner.IsData) :
    ∀ member ∈ keyword key value, member.2.IsData := by
  cases value with
  | none => simp [keyword]
  | some value => simpa [keyword] using own

theorem forall_mem_listKeyword {key : String} {items : List Value}
    (each : ∀ item ∈ items, item.IsData) :
    ∀ member ∈ listKeyword key items, member.2.IsData := by
  rw [listKeyword]
  split
  · simp
  · simpa using Value.isData_array each

theorem isData_texts {text : Option String} : ∀ value ∈ text.map Value.string, value.IsData := by
  rintro value own
  obtain ⟨text, -, rfl⟩ := Option.map_eq_some_iff.mp own
  exact Value.isData_string text

theorem isData_counts {count : Option Nat} (small : ∀ number ∈ count, number ≤ limit)
    (word : limit < 2 ^ 64) :
    ∀ value ∈ (count.map fun count => .whole count : Option Value), value.IsData := by
  rintro value own
  obtain ⟨size, counted, rfl⟩ := Option.map_eq_some_iff.mp own
  obtain ⟨number, same, counted⟩ := Option.bind_eq_some_iff.mp counted
  cases counted
  have bound := small number same
  exact Value.isData_number ⟨by omega, by omega⟩

theorem isData_foldl_put {members : Members} (data : (Value.object members).IsData)
    (extensions : Entries String) :
    (Value.object (extensions.foldl (fun members extension =>
      Entries.put extension.1 (.string extension.2) members) members)).IsData := by
  induction extensions generalizing members with
  | nil => exact data
  | cons extension extensions ih =>
      exact ih (data.put (Value.isData_string extension.2) extension.1)

end Values

section Words

mutual

/-- The value of a schema that counts with words is data. -/
theorem isData_toValue (word : limit < 2 ^ 64) (schema : Schema)
    (records : schema.Throughout (Records limit)) : schema.toValue.IsData :=
  match schema with
  | ⟨typeName, reference, title, description, enumeration, oneOf, allOf, items, minItems,
      maxItems, properties, required, nullable, defaultValue, extensions⟩ => by
    obtain ⟨own, below⟩ := throughout_iff.mp records
    have inOneOf := isData_toValues word oneOf fun part member =>
      below part (mem_inner_iff.mpr (.inl member))
    have inAllOf := isData_toValues word allOf fun part member =>
      below part (mem_inner_iff.mpr (.inr (.inl member)))
    have inItems := isData_itemsValue word items fun part member =>
      below part (mem_inner_iff.mpr (.inr (.inr (.inl member))))
    have inProperties := isData_propertiesValue word properties own.distinct fun part member =>
      below part (mem_inner_iff.mpr (.inr (.inr (.inr member))))
    have requiredTexts : ∀ value ∈ required.map Value.string, value.IsData := by
      intro value member
      obtain ⟨name, -, rfl⟩ := List.mem_map.mp member
      exact Value.isData_string name
    have nullability : ∀ value ∈ (if nullable then some (Value.bool true) else none),
        value.IsData := by
      cases nullable <;> simp [Value.isData_bool]
    rw [toValue]
    refine isData_foldl_put (Value.isData_object_iff.mpr ⟨?_, ?_⟩) extensions
    · simp only [Entries.keys_append]
      exact ((((((((((((((keys_keyword_sublist _ _).append (keys_keyword_sublist _ _)).append
        (keys_keyword_sublist _ _)).append (keys_keyword_sublist _ _)).append
        (keys_listKeyword_sublist _ _)).append (keys_listKeyword_sublist _ _)).append
        (keys_listKeyword_sublist _ _)).append (keys_keyword_sublist _ _)).append
        (keys_keyword_sublist _ _)).append (keys_keyword_sublist _ _)).append
        (keys_keyword_sublist _ _)).append (keys_listKeyword_sublist _ _)).append
        (keys_keyword_sublist _ _)).append (keys_keyword_sublist _ _)).nodup (by decide)
    · simp only [List.forall_mem_append, and_assoc]
      exact ⟨forall_mem_keyword isData_texts, forall_mem_keyword isData_texts,
        forall_mem_keyword isData_texts, forall_mem_keyword isData_texts,
        forall_mem_listKeyword own.enumeration, forall_mem_listKeyword inOneOf,
        forall_mem_listKeyword inAllOf, forall_mem_keyword inItems,
        forall_mem_keyword (isData_counts own.minItems word),
        forall_mem_keyword (isData_counts own.maxItems word), forall_mem_keyword inProperties,
        forall_mem_listKeyword requiredTexts, forall_mem_keyword nullability,
        forall_mem_keyword own.defaultValue⟩

theorem isData_toValues (word : limit < 2 ^ 64) (schemas : List Schema)
    (each : ∀ schema ∈ schemas, schema.Throughout (Records limit)) :
    ∀ value ∈ toValues schemas, value.IsData :=
  match schemas with
  | [] => by simp [toValues]
  | schema :: schemas => by
      rw [List.forall_mem_cons] at each
      rw [toValues, List.forall_mem_cons]
      exact ⟨isData_toValue word schema each.1, isData_toValues word schemas each.2⟩

theorem isData_itemsValue (word : limit < 2 ^ 64) (items : Items Schema)
    (each : ∀ schema ∈ items.schemas, schema.Throughout (Records limit)) :
    ∀ value ∈ itemsValue items, value.IsData :=
  match items with
  | .absent => by simp [itemsValue]
  | .each schema => by
      rintro value ⟨⟩
      exact isData_toValue word schema (each schema List.mem_cons_self)
  | .tuple schemas => by
      rintro value ⟨⟩
      exact Value.isData_array (isData_toValues word schemas each)

theorem isData_propertiesValue (word : limit < 2 ^ 64)
    (properties : Option (List (String × Schema)))
    (distinct : (Entries.keys (properties.getD [])).Nodup)
    (each : ∀ schema ∈ Entries.values (properties.getD []), schema.Throughout (Records limit)) :
    ∀ value ∈ propertiesValue properties, value.IsData :=
  match properties with
  | none => by simp [propertiesValue]
  | some properties => by
      rintro value ⟨⟩
      obtain ⟨sameKeys, members⟩ := isData_propertyMembers word properties each
      exact Value.isData_object_iff.mpr ⟨sameKeys ▸ distinct, members⟩

theorem isData_propertyMembers (word : limit < 2 ^ 64)
    (properties : List (String × Schema))
    (each : ∀ schema ∈ Entries.values properties, schema.Throughout (Records limit)) :
    Entries.keys (propertyMembers properties) = Entries.keys properties ∧
      ∀ member ∈ propertyMembers properties, member.2.IsData :=
  match properties with
  | [] => by simp [propertyMembers]
  | (name, schema) :: properties => by
      rw [Entries.values, List.map_cons, List.forall_mem_cons] at each
      obtain ⟨sameKeys, members⟩ := isData_propertyMembers word properties each.2
      rw [propertyMembers, Entries.keys_cons, Entries.keys_cons, sameKeys, List.forall_mem_cons]
      exact ⟨rfl, isData_toValue word schema each.1, members⟩

end

end Words

section Changes

theorem Converted.defaultValue_eq {schema : Schema} (converted : schema.Converted) :
    schema.defaultValue = none := by
  cases converted <;> rfl

theorem Converted.records {schema : Schema} (converted : schema.Converted) :
    schema.Records limit where
  enumeration := by
    intro value member
    cases converted with
    | strings literals =>
        obtain ⟨literal, -, rfl⟩ := List.mem_map.mp member
        exact Value.isData_string literal
    | numbers literals =>
        obtain ⟨literal, -, rfl⟩ := List.mem_map.mp member
        exact isData_literalValue literal
    | _ => cases member
  defaultValue := by simp [converted.defaultValue_eq]
  distinct := converted.undivided.distinct
  items := fun items placed => absurd placed (converted.undivided.items_ne_tuple items)
  minItems := by simp [converted.undivided.minItems_eq]
  maxItems := by simp [converted.maxItems_eq]

theorem Converted.throughout_records {schema : Schema} (converted : schema.Converted) :
    schema.Throughout (Records limit) :=
  fun node within => (converted.throughout node within).records

theorem Throughout.mono {larger : Nat} (records : schema.Throughout (Records limit))
    (le : limit ≤ larger) : schema.Throughout (Records larger) :=
  fun node within => (records node within).mono le

/-- Of what is said about a schema as a whole, only the default is written as it is. -/
theorem Throughout.annotate (records : schema.Throughout (Records limit))
    (title description : Option String) (nullable : Bool) {defaultValue : Option Value}
    (data : ∀ value ∈ defaultValue, value.IsData) (extensions : Entries String) :
    { schema with title, description, nullable, defaultValue, extensions }.Throughout
      (Records limit) := by
  have here := (throughout_iff.mp records).1
  refine records.of_subset ?_ (List.Subset.refl _)
  exact ⟨here.enumeration, data, here.distinct, here.items, here.minItems, here.maxItems⟩

theorem Records.withPart {old new : Schema} {step : Step} (records : schema.Records limit)
    (found : schema.part? step = some old) : (schema.withPart step new).Records limit := by
  cases step with
  | property name =>
      obtain ⟨properties, present, -⟩ := Option.bind_eq_some_iff.mp found
      rw [withPart_property present]
      refine ⟨records.enumeration, records.defaultValue, ?_, records.items, records.minItems,
        records.maxItems⟩
      simpa [present] using records.distinct
  | item index =>
      obtain ⟨items, present, -⟩ := exists_of_item? found
      rw [withPart_item present]
      refine ⟨records.enumeration, records.defaultValue, records.distinct, ?_, records.minItems,
        records.maxItems⟩
      intro others placed
      obtain rfl := Items.tuple.inj placed
      simpa using records.items items present

theorem Throughout.modifyAt_records {change : Schema → Schema} {old : Schema} {path : List Step}
    (records : schema.Throughout (Records limit)) (found : schema.at? path = some old)
    (changed : (change old).Throughout (Records limit)) :
    (schema.modifyAt change path).Throughout (Records limit) :=
  (@Throughout.modifyAt (Records limit) (fun _ _ => True)
    (fun here present _ => ⟨here.withPart present, trivial⟩) _ _ _ _ records found trivial
    changed).1

/-- A further item is one more to count. -/
theorem Throughout.attachItem {parent property : Schema} {items : List Schema}
    (records : parent.Throughout (Records limit))
    (placed : Typedef.placedItems? parent.items = some items) (optional : Bool)
    (propertyRecords : property.Throughout (Records limit)) :
    (Typedef.attachItem property optional items parent).Throughout (Records (limit + 1)) := by
  obtain ⟨here, below⟩ := throughout_iff.mp records
  have few : items.length ≤ limit := by
    rcases Typedef.placedItems?_eq_some_iff.mp placed with ⟨-, rfl⟩ | present
    · exact Nat.zero_le limit
    · exact here.items items present
  refine throughout_iff.mpr ⟨?_, ?_⟩
  · refine ⟨here.enumeration, here.defaultValue, here.distinct, ?_, ?_, ?_⟩
    · intro others placedNow
      obtain rfl := Items.tuple.inj placedNow
      simpa using few
    · intro count stated
      rw [Typedef.attachItem] at stated
      split at stated
      · exact (here.minItems count stated).trans (Nat.le_succ limit)
      · cases stated
        cases least : parent.minItems with
        | none => simp
        | some before => simpa using here.minItems before least
    · rintro count ⟨⟩
      exact Nat.succ_le_succ few
  · intro part member
    rcases eq_or_mem_inner_of_attachItem placed member with rfl | old
    · exact propertyRecords.mono (Nat.le_succ limit)
    · exact (below part old).mono (Nat.le_succ limit)

theorem Throughout.attachProperty {parent property : Schema}
    (records : parent.Throughout (Records limit)) (name : String) (optional : Bool)
    (propertyRecords : property.Throughout (Records limit)) :
    (Typedef.attachProperty name property optional parent).Throughout (Records limit) := by
  obtain ⟨here, below⟩ := throughout_iff.mp records
  refine throughout_iff.mpr ⟨?_, ?_⟩
  · exact ⟨here.enumeration, here.defaultValue, Entries.nodup_keys_put here.distinct property,
      here.items, here.minItems, here.maxItems⟩
  · intro part member
    rcases eq_or_mem_inner_of_attachProperty member with rfl | before
    · exact propertyRecords
    · exact below part before

end Changes

end Schema

namespace Typedef

open Schema (Records Throughout)

variable {limit : Nat}

theorem isData_defaultValue (text : String) : (defaultValue text).IsData := by
  rw [defaultValue]
  cases read : Json.read? text with
  | none => exact Value.isData_string text
  | some value => exact Json.isData_of_read? read

theorem records_of_propertySchema {tag : Tag} {schema : Schema}
    (success : propertySchema tag = .ok schema) : schema.Throughout (Records limit) := by
  obtain ⟨plain, converted, rfl⟩ := exists_of_propertySchema_eq_ok success
  refine converted.throughout_records.annotate _ _ _ ?_ _
  intro value own
  rcases Option.or_eq_some_iff.mp own with stated | ⟨-, before⟩
  · obtain ⟨text, -, rfl⟩ := Option.map_eq_some_iff.mp stated
    exact isData_defaultValue text
  · rw [converted.defaultValue_eq] at before
    cases before

namespace Progress

variable {progress advanced : Progress} {tag : Tag}

/-- A declaration adds one item at most. -/
theorem records_declare (records : progress.root.Throughout (Records limit))
    (success : progress.declare tag = .ok advanced) :
    advanced.root.Throughout (Records (limit + 1)) := by
  obtain ⟨path, property, parent, step, attach, -, converts, found, attaches, rfl⟩ :=
    exists_of_declare_eq_ok success
  have parentRecords := records.at? found
  refine (records.mono (Nat.le_succ limit)).modifyAt_records found ?_
  cases attaches with
  | item array placed =>
      exact parentRecords.attachItem placed _ (records_of_propertySchema converts)
  | property noArray =>
      exact (parentRecords.mono (Nat.le_succ limit)).attachProperty _ _
        (records_of_propertySchema converts)

theorem records_extend (records : progress.root.Throughout (Records limit))
    (success : progress.extend tag = .ok advanced) :
    advanced.root.Throughout (Records limit) := by
  by_cases named : tag.name = ""
  · rw [extend, if_pos named] at success
    cases success
    exact records
  · obtain ⟨path, part, -, found, rfl⟩ := exists_of_extend_eq_ok named success
    have partRecords := records.at? found
    exact records.modifyAt_records found
      (partRecords.annotate _ _ _ (Schema.throughout_iff.mp partRecords).1.defaultValue _)

theorem records_next (records : progress.root.Throughout (Records limit)) (tag : Tag) :
    (progress.next tag).root.Throughout (Records (limit + 1)) := by
  cases outcome : progress.apply tag with
  | error error => simpa [next, outcome] using records.mono (Nat.le_succ limit)
  | ok advanced =>
      have advances : progress.next tag = advanced := by rw [next, outcome]
      rw [advances]
      rw [apply_eq] at outcome
      split at outcome
      · exact records_declare records outcome
      · split at outcome
        · exact (records_extend records outcome).mono (Nat.le_succ limit)
        · cases outcome
          exact records.mono (Nat.le_succ limit)

/-- A run over tags adds at most as many items to an array as there are tags. -/
theorem records_foldl_next (records : progress.root.Throughout (Records limit))
    (tags : List Tag) :
    (tags.foldl Progress.next progress).root.Throughout (Records (limit + tags.length)) := by
  induction tags generalizing progress limit with
  | nil => exact records
  | cons tag tags ih =>
      have later := ih (records_next records tag)
      rwa [Nat.add_right_comm, Nat.add_assoc] at later

end Progress

/-- The schema of a type whose comment has fewer tags than there are words is data. -/
theorem isData_of_ofBlock? {block : Block} {defined : Typedef} (few : block.tags.length < 2 ^ 64)
    (translated : ofBlock? block = some (.ok defined)) : defined.schema.toValue.IsData := by
  obtain ⟨typedef, -, outcome⟩ := Option.map_eq_some_iff.mp translated
  split at outcome
  · cases outcome
  · cases outcome
    have converted := converted_rootSchema typedef.typeText
    have count : 0 + block.tags.length < 2 ^ 64 := by simpa using few
    refine Schema.isData_toValue count _ (Progress.records_foldl_next
      (converted.throughout_records.annotate _ _ _ ?_ _) block.tags)
    intro value own
    cases converted.defaultValue_eq.symm.trans own

end Typedef

end ApiAssembly
