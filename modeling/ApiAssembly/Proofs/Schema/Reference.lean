import ApiAssembly.Proofs.Document.OpenReference
import ApiAssembly.Proofs.Schema.Coverage

/-!
# References of converted expressions

The references of a schema's value are its own one, those of its keywords that hold arbitrary
values, and those of the schemas within it, in the order of the keywords.  A converted
expression refers to the names in the parts that count, in their order: its references are the
first occurrences among these names.
-/

namespace ApiAssembly

namespace Value

theorem referenceNames_array (items : List Value) :
    (array items).referenceNames = items.flatMap referenceNames := by
  induction items with
  | nil => rfl
  | cons item items ih =>
      have split : (array (item :: items)).referenceNames =
          item.referenceNames ++ (array items).referenceNames := by
        simp [referenceNames, keyed, keyedItems]
      rw [split, ih, List.flatMap_cons]

theorem referenceNames_object_of_not_mem {members : Members}
    (ordinary : "$ref" ∉ Entries.keys members) :
    (object members).referenceNames = (Entries.values members).flatMap referenceNames := by
  induction members with
  | nil => rfl
  | cons member members ih =>
      rw [Entries.keys_cons, List.mem_cons, not_or] at ordinary
      rw [referenceNames_object_cons, referenceNames_object_singleton (Ne.symm ordinary.1),
        ih ordinary.2]
      rfl

/-- A reference under its key names a schema. -/
theorem referenceNames_object_reference (target : String) :
    (object [("$ref", .string target)]).referenceNames = (referencedName? target).toList := by
  simp only [referenceNames, keyed, keyedMembers, if_true, List.append_nil]
  cases found : referencedName? target <;> simp [string?, found]

end Value

namespace TypeExpr

/-- Whether a name is that of a schema: it is neither the name of a basic type nor a boolean
literal, in whatever case it is written. -/
def isSchemaName (name : String) : Bool :=
  let small := String.ofList (name.toList.map Char.toLower)
  !(["true", "false"].contains small) &&
    !(["null", "boolean", "object", "array", "number", "string", "integer"].contains small)

theorem isSchemaName_eq (name : String) :
    isSchemaName name = (!Schema.booleanLiterals.contains (Schema.lowerName name) &&
      !Schema.basicTypes.contains (Schema.lowerName name)) :=
  rfl

/-- The name of a schema, if an expression is one. -/
def ownNames : TypeExpr → List String
  | .name text => if isSchemaName text then [text] else []
  | _ => []

variable {expression operand : TypeExpr}

theorem shown_subset_operands : expression.shown ⊆ expression.operands := by
  cases expression with
  | record entries =>
      intro operand member
      obtain ⟨entry, among, rfl⟩ := List.mem_map.mp member
      have each : ∀ pair ∈ entries, pair.2 ∈ entries.map Prod.snd :=
        fun pair inside => List.mem_map_of_mem inside
      rw [Entries.settled_eq_putAll] at among
      exact Entries.forall_mem_ofPairs each entry among
  | generic subject objects => exact List.take_subset 1 objects
  | _ => exact List.Subset.refl _

theorem sizeOf_lt_of_mem_operands (member : operand ∈ expression.operands) :
    sizeOf operand < sizeOf expression := by
  cases expression with
  | union left right | intersection left right =>
      rcases List.mem_pair.mp member with rfl | rfl <;> simp +arith
  | parenthesis inner | nullable inner | notNullable inner | optional inner | variadic inner =>
      obtain rfl := List.mem_singleton.mp member
      simp +arith
  | record entries =>
      obtain ⟨entry, among, rfl⟩ := List.mem_map.mp member
      have smaller := List.sizeOf_lt_of_mem among
      obtain ⟨key, value⟩ := entry
      simp only [Prod.mk.sizeOf_spec] at smaller
      simp only [record.sizeOf_spec]
      omega
  | generic subject objects =>
      have among : operand ∈ objects := member
      have smaller := List.sizeOf_lt_of_mem among
      simp only [generic.sizeOf_spec]
      omega
  | name | number | string | any | unknown => cases member

/-- The names of schemas in the parts of an expression that count, from left to right and as often
as they stand there. -/
def schemaNames (expression : TypeExpr) : List String :=
  expression.ownNames ++
    expression.shown.attach.flatMap fun ⟨operand, _member⟩ => operand.schemaNames
termination_by sizeOf expression
decreasing_by exact sizeOf_lt_of_mem_operands (shown_subset_operands _member)

theorem schemaNames_eq (expression : TypeExpr) : expression.schemaNames =
    expression.ownNames ++ expression.shown.flatMap schemaNames := by
  have attached : expression.shown.attach.flatMap (fun operand => operand.1.schemaNames) =
      expression.shown.flatMap schemaNames := by
    rw [← List.flatMap_map, List.attach_map_subtype_val]
  rw [schemaNames, ← attached]

theorem schemaNames_of_shown_eq_nil (noName : expression.ownNames = [])
    (nothing : expression.shown = []) : expression.schemaNames = [] := by
  rw [schemaNames_eq, noName, nothing]
  rfl

theorem schemaNames_eq_flatMap_alternatives (expression : TypeExpr) :
    expression.schemaNames = expression.alternatives.flatMap schemaNames := by
  fun_induction alternatives expression with
  | case1 left right ih =>
      rw [schemaNames_eq, List.flatMap_cons, ← ih]
      simp [ownNames, shown, considered, operands]
  | case2 other => rw [List.flatMap_singleton]

theorem schemaNames_eq_flatMap_conjuncts (expression : TypeExpr) :
    expression.schemaNames = expression.conjuncts.flatMap schemaNames := by
  fun_induction conjuncts expression with
  | case1 left right ih =>
      rw [schemaNames_eq, List.flatMap_cons, ← ih]
      simp [ownNames, shown, considered, operands]
  | case2 other => rw [List.flatMap_singleton]

/-- An expression whose references can be read off its schema: no record has a key under which
a reference is looked for, and no name is empty. -/
structure Referable (expression : TypeExpr) : Prop where
  keys : ∀ entries, (record entries).Within expression → "$ref" ∉ Entries.keys entries
  named : ¬(name "").Within expression

theorem Referable.of_within (referable : expression.Referable)
    (within : operand.Within expression) : operand.Referable where
  keys entries inside := referable.keys entries (inside.trans within)
  named inside := referable.named (inside.trans within)

theorem Referable.of_operands
    (ordinary : ∀ entries, expression = .record entries → "$ref" ∉ Entries.keys entries)
    (nonempty : expression ≠ .name "")
    (below : ∀ operand ∈ expression.operands, operand.Referable) : expression.Referable where
  keys entries within := by
    cases within with
    | self => exact ordinary entries rfl
    | inner member inside => exact (below _ member).keys entries inside
  named within := by
    cases within with
    | self => exact nonempty rfl
    | inner member inside => exact (below _ member).named inside

end TypeExpr

namespace Schema

open Value (referenceNames)

section Keywords

variable {key : String}

theorem referenceNames_keyword (ordinary : key ≠ "$ref") (value : Option Value) :
    (Value.object (keyword key value)).referenceNames = value.toList.flatMap referenceNames := by
  cases value with
  | none => rfl
  | some value =>
      rw [keyword, Value.referenceNames_object_singleton ordinary]
      simp

theorem referenceNames_listKeyword (ordinary : key ≠ "$ref") (items : List Value) :
    (Value.object (listKeyword key items)).referenceNames = items.flatMap referenceNames := by
  cases items with
  | nil => rfl
  | cons item items =>
      rw [listKeyword, if_neg (by simp), Value.referenceNames_object_singleton ordinary,
        Value.referenceNames_array]

theorem toValues_eq_map (schemas : List Schema) : toValues schemas = schemas.map toValue := by
  induction schemas with
  | nil => rfl
  | cons schema schemas ih => rw [toValues, ih, List.map_cons]

theorem propertyMembers_eq_map (properties : Entries Schema) :
    propertyMembers properties = properties.map fun entry => (entry.1, entry.2.toValue) := by
  induction properties with
  | nil => rfl
  | cons entry properties ih =>
      obtain ⟨name, schema⟩ := entry
      rw [propertyMembers, ih, List.map_cons]

theorem referenceNames_itemsValue (items : Items Schema) :
    (itemsValue items).toList.flatMap referenceNames =
      items.schemas.flatMap fun schema => schema.toValue.referenceNames := by
  cases items with
  | absent => rfl
  | each schema => simp [itemsValue, Items.schemas]
  | tuple schemas =>
      simp [itemsValue, Items.schemas, Value.referenceNames_array, toValues_eq_map,
        List.flatMap_map]

theorem referenceNames_propertiesValue {properties : Option (Entries Schema)}
    (ordinary : "$ref" ∉ Entries.keys (properties.getD [])) :
    (propertiesValue properties).toList.flatMap referenceNames =
      (Entries.values (properties.getD [])).flatMap fun schema =>
        schema.toValue.referenceNames := by
  cases properties with
  | none => rfl
  | some properties =>
      have sameKeys : Entries.keys (propertyMembers properties) = Entries.keys properties := by
        simp [propertyMembers_eq_map, Entries.keys]
      rw [propertiesValue, Option.toList_some, List.flatMap_singleton,
        Value.referenceNames_object_of_not_mem (sameKeys ▸ ordinary), propertyMembers_eq_map]
      simp [Entries.values, List.flatMap_map]

/-- The references of a schema without further keywords: its own one, those in the values that
it enumerates, those of the schemas within it and those of its default. -/
theorem referenceNames_toValue {schema : Schema} (plain : schema.extensions = [])
    (ordinary : "$ref" ∉ Entries.keys (schema.properties.getD [])) :
    schema.toValue.referenceNames =
      schema.reference.toList.flatMap (fun target => (referencedName? target).toList) ++
        schema.enumeration.flatMap referenceNames ++
        schema.inner.flatMap (fun part => part.toValue.referenceNames) ++
        schema.defaultValue.toList.flatMap referenceNames := by
  obtain ⟨typeName, reference, title, description, enumeration, oneOf, allOf, items, minItems,
    maxItems, properties, required, nullable, defaultValue, extensions⟩ := schema
  cases plain
  have own : (Value.object (keyword "$ref" (reference.map .string))).referenceNames =
      reference.toList.flatMap fun target => (referencedName? target).toList := by
    cases reference with
    | none => rfl
    | some target => simpa [keyword] using Value.referenceNames_object_reference target
  have texts (text : Option String) :
      (text.map Value.string).toList.flatMap referenceNames = [] := by
    cases text <;> rfl
  have counts (count : Option Nat) : (count.map fun count =>
      Value.whole count).toList.flatMap referenceNames = [] := by
    cases count <;> rfl
  have names : (required.map Value.string).flatMap referenceNames = [] := by
    rw [List.flatMap_map, List.flatMap_eq_nil_iff]
    exact fun name _ => rfl
  have flag : (if nullable then some (Value.bool true) else none).toList.flatMap
      referenceNames = [] := by
    cases nullable <;> rfl
  rw [toValue]
  simp only [List.foldl_nil, Value.referenceNames_object_append, own]
  rw [referenceNames_keyword (by decide), referenceNames_keyword (by decide),
    referenceNames_keyword (by decide), referenceNames_listKeyword (by decide),
    referenceNames_listKeyword (by decide), referenceNames_listKeyword (by decide),
    referenceNames_keyword (by decide), referenceNames_keyword (by decide),
    referenceNames_keyword (by decide), referenceNames_keyword (by decide),
    referenceNames_listKeyword (by decide), referenceNames_keyword (by decide),
    referenceNames_keyword (by decide), referenceNames_itemsValue,
    referenceNames_propertiesValue ordinary]
  simp only [texts, counts, names, flag, toValues_eq_map, List.flatMap_map, inner,
    List.flatMap_append, List.nil_append, List.append_nil, List.append_assoc]

end Keywords

section Conversion

open TypeExpr (schemaNames schemaNames_eq Referable)

variable {expression : TypeExpr} {schema : Schema}

/-- A schema refers to the names of an expression. -/
def Refers (expression : TypeExpr) (schema : Schema) : Prop :=
  expression.Referable → schema.toValue.referenceNames = expression.schemaNames

/-- Schemas refer in order to the names of expressions. -/
theorem flatMap_referenceNames {expressions : List TypeExpr} {schemas : List Schema}
    (each : List.Forall₂ Refers expressions schemas)
    (referable : ∀ expression ∈ expressions, expression.Referable) :
    schemas.flatMap (fun schema => schema.toValue.referenceNames) =
      expressions.flatMap schemaNames := by
  induction each with
  | nil => rfl
  | cons first _ ih =>
      rw [List.forall_mem_cons] at referable
      rw [List.flatMap_cons, List.flatMap_cons, first referable.1, ih referable.2]

theorem refers_ofName (name : String) : Refers (.name name) (ofName name) := by
  intro referable
  have named : name ≠ "" := by
    rintro rfl
    exact referable.named .self
  have type (typeName : String) : (ofType typeName).toValue.referenceNames = [] := by
    rw [referenceNames_toValue rfl List.not_mem_nil]
    rfl
  have reference : (referenceTo name).toValue.referenceNames = [name] := by
    have found : referencedName? (referenceBase ++ name) = some name :=
      referencedName?_eq_some_iff.mpr ⟨rfl, named⟩
    rw [referenceNames_toValue rfl List.not_mem_nil]
    simp [referenceTo, found, inner, Items.schemas, Entries.values]
  have names : (TypeExpr.name name).schemaNames =
      if TypeExpr.isSchemaName name then [name] else [] := by
    rw [schemaNames_eq]
    simp [TypeExpr.ownNames, TypeExpr.shown, TypeExpr.considered, TypeExpr.operands]
  rw [names, TypeExpr.isSchemaName_eq]
  simp only [ofName]
  split
  next boolean =>
    rw [type, boolean]
    rfl
  next noBoolean =>
    rw [Bool.eq_false_iff.mpr noBoolean]
    split
    next basic =>
      rw [type, basic]
      rfl
    next noBasic =>
      rw [reference, Bool.eq_false_iff.mpr noBasic]
      rfl

/-- A chain of literals has no names, and its values have no references. -/
theorem refers_of_literals {α : Type} {literals : List α} {literal : α → TypeExpr}
    (chain : expression.alternatives = literals.map literal)
    (noName : ∀ value, (literal value).ownNames = [])
    (nothing : ∀ value, (literal value).shown = [])
    (noReference : schema.toValue.referenceNames = []) : Refers expression schema := by
  intro _
  rw [noReference, TypeExpr.schemaNames_eq_flatMap_alternatives, chain, List.flatMap_map,
    eq_comm, List.flatMap_eq_nil_iff]
  exact fun value _ => TypeExpr.schemaNames_of_shown_eq_nil (noName value) (nothing value)

theorem referenceNames_of_enumeration {typeName : String} {values : List Value}
    (each : ∀ value ∈ values, value.referenceNames = []) :
    ({ typeName := some typeName, enumeration := values } : Schema).toValue.referenceNames =
      [] := by
  rw [referenceNames_toValue rfl List.not_mem_nil, List.flatMap_eq_nil_iff.mpr each]
  rfl

theorem referenceNames_of_properties {properties : Entries Schema}
    (ordinary : "$ref" ∉ Entries.keys properties) :
    ({ typeName := some "object", properties := some properties } : Schema).toValue.referenceNames =
      (Entries.values properties).flatMap fun part => part.toValue.referenceNames := by
  rw [referenceNames_toValue rfl, inner_properties]
  · simp
  · exact ordinary

theorem referenceNames_literalValue (literal : Decimal.Binary64) :
    (literalValue literal).referenceNames = [] := by
  rw [literalValue]
  split
  · rfl
  · split <;> rfl

theorem closed_refers : ClosedUnderConversion Refers where
  name name := refers_ofName name
  strings chain := by
    refine refers_of_literals chain (fun _ => rfl) (fun _ => rfl)
      (referenceNames_of_enumeration ?_)
    exact List.forall_mem_map.mpr fun value _ => rfl
  numbers chain := by
    refine refers_of_literals chain (fun _ => rfl) (fun _ => rfl)
      (referenceNames_of_enumeration ?_)
    exact List.forall_mem_map.mpr fun literal _ => referenceNames_literalValue literal
  alternatives {left right schemas} each := by
    intro referable
    have same := flatMap_referenceNames each fun alternative member =>
      referable.of_within (TypeExpr.within_of_mem_alternatives member)
    rw [referenceNames_toValue rfl List.not_mem_nil, inner_oneOf, same,
      TypeExpr.schemaNames_eq_flatMap_alternatives]
    simp
  conjuncts {left right schemas} each := by
    intro referable
    have same := flatMap_referenceNames each fun conjunct member =>
      referable.of_within (TypeExpr.within_of_mem_conjuncts member)
    rw [referenceNames_toValue rfl List.not_mem_nil, inner_allOf, same,
      TypeExpr.schemaNames_eq_flatMap_conjuncts]
    simp
  parenthesis {expression schema} inside := by
    intro referable
    rw [inside (referable.of_within (.inner List.mem_cons_self .self)),
      schemaNames_eq (.parenthesis expression)]
    simp [TypeExpr.ownNames, TypeExpr.shown, TypeExpr.considered, TypeExpr.operands]
  any := by
    intro _
    rw [referenceNames_toValue rfl List.not_mem_nil, schemaNames_eq]
    rfl
  record {entries schemas} each := by
    intro referable
    -- the properties of the schema are not those of the entries but of the entries that count
    have corresponding := Entries.corresponding_settled each
    have same := flatMap_referenceNames corresponding.values fun value member =>
      referable.of_within (.inner (TypeExpr.shown_subset_operands member) .self)
    have ordinary : "$ref" ∉
        Entries.keys (Entries.putAll ((Entries.keys entries).zip schemas) []) := by
      rw [← corresponding.keys, Entries.keys_settled, List.mem_eraseDups]
      exact referable.keys entries .self
    rw [schemaNames_eq]
    exact (referenceNames_of_properties ordinary).trans same
  array {subject element others schema} _ inside := by
    intro referable
    have elementWithin : element.Within (.generic subject (element :: others)) :=
      .inner List.mem_cons_self .self
    rw [referenceNames_toValue rfl List.not_mem_nil, inner_arrayOf, schemaNames_eq]
    simp [TypeExpr.ownNames, TypeExpr.shown, TypeExpr.considered, arrayOf,
      inside (referable.of_within elementWithin)]

/-- The schema of an expression refers to the names of schemas in it, apart from those in the types
behind the first one that a generic type is applied to and in the entries of a record whose key is
written again: each once, in the order of their first occurrence. -/
theorem schemaReferences_of_ofTypeExpr (converts : ofTypeExpr expression = .ok schema)
    (ordinary : ∀ entries, (TypeExpr.record entries).Within expression →
      "$ref" ∉ Entries.keys entries)
    (named : ¬(TypeExpr.name "").Within expression) :
    schema.toValue.schemaReferences = expression.schemaNames.eraseDups := by
  rw [Value.schemaReferences_eq_eraseDups,
    closed_refers.of_ofTypeExpr converts ⟨ordinary, named⟩]

/-- Alternatives with a key that is written again and a type behind the first one of an array. -/
def petAlternatives : TypeExpr :=
  .union (.name "Pet") (.record [("a", .name "Cat"),
    ("b", .generic "Array" [.name "Dog", .name "Bird"]), ("a", .name "Pet")])

theorem schemaReferences_petAlternatives :
    ∃ schema, ofTypeExpr petAlternatives = .ok schema ∧
      schema.toValue.schemaReferences = ["Pet", "Dog"] := by
  have converts : ofTypeExpr petAlternatives =
      .ok { oneOf := [ofName "Pet",
              { typeName := some "object",
                properties := some [("a", ofName "Pet"), ("b", arrayOf (ofName "Dog"))] }] } := by
    have isArray : isArrayName "Array" = true := by decide
    simp only [petAlternatives, ofTypeExpr, ofAlternatives, ofEntries, stringLiterals?,
      numberLiterals?, isArray, if_true]
    rfl
  have leaf (name : String) (isName : TypeExpr.isSchemaName name = true) :
      (TypeExpr.name name).schemaNames = [name] := by
    rw [schemaNames_eq]
    simp [TypeExpr.ownNames, TypeExpr.shown, TypeExpr.considered, TypeExpr.operands, isName]
  have pet := leaf "Pet" (by decide)
  have array : (TypeExpr.generic "Array" [.name "Dog", .name "Bird"]).schemaNames = ["Dog"] := by
    rw [schemaNames_eq]
    simp [TypeExpr.ownNames, TypeExpr.shown, TypeExpr.considered, leaf "Dog" (by decide)]
  have record : (TypeExpr.record [("a", .name "Cat"),
      ("b", .generic "Array" [.name "Dog", .name "Bird"]), ("a", .name "Pet")]).schemaNames =
        ["Pet", "Dog"] := by
    rw [schemaNames_eq, TypeExpr.shown, Entries.settled_eq_putAll]
    simp [TypeExpr.ownNames, Entries.putAll, Entries.put, Entries.values, pet, array]
  have names : petAlternatives.schemaNames = ["Pet", "Pet", "Dog"] := by
    rw [petAlternatives, schemaNames_eq]
    simp [TypeExpr.ownNames, TypeExpr.shown, TypeExpr.considered, TypeExpr.operands, pet, record]
  have named (name : String) (nonempty : name ≠ "") : (TypeExpr.name name).Referable :=
    .of_operands (by simp) (by simpa using nonempty) (List.forall_mem_nil _)
  have pets := named "Pet" (by decide)
  have arrayReferable : (TypeExpr.generic "Array" [.name "Dog", .name "Bird"]).Referable :=
    .of_operands (by simp) (by simp) (List.forall_mem_cons.mpr
      ⟨named "Dog" (by decide), List.forall_mem_singleton.mpr (named "Bird" (by decide))⟩)
  have recordReferable : (TypeExpr.record [("a", .name "Cat"),
      ("b", .generic "Array" [.name "Dog", .name "Bird"]), ("a", .name "Pet")]).Referable := by
    refine .of_operands ?_ (by simp) (List.forall_mem_cons.mpr ⟨named "Cat" (by decide),
      List.forall_mem_cons.mpr ⟨arrayReferable, List.forall_mem_singleton.mpr pets⟩⟩)
    rintro entries same
    cases same
    decide
  have referable : petAlternatives.Referable :=
    .of_operands (by simp [petAlternatives]) (by simp [petAlternatives])
      (List.forall_mem_cons.mpr ⟨pets, List.forall_mem_singleton.mpr recordReferable⟩)
  refine ⟨_, converts, ?_⟩
  rw [schemaReferences_of_ofTypeExpr converts referable.keys referable.named, names]
  decide

end Conversion

end Schema

end ApiAssembly
