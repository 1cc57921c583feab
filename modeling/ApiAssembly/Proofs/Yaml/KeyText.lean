import ApiAssembly.Proofs.Json.Uniqueness
import ApiAssembly.Proofs.Yaml.Fitting
import ApiAssembly.Proofs.Yaml.ValueNode

/-!
# Keys that become texts

A key of a mapping may be any node, and in a value it is a text: the key's own if it is a
string, and the JSON text of its value otherwise.  Different keys can become the same text, of
which one member is left then.  The main statement tells when: if they have the same value,
which different keys have only where something of them is dropped, or if one of them is a string
that is the JSON text of the other.
-/

namespace ApiAssembly.Yaml

section Texts

variable {value other : Value}

/-- The first value is a string that spells the second one out, which is no string. -/
def SpellsOut (value other : Value) : Prop :=
  other.string? = none ∧ value = .string (Json.compact other)

theorem keyText_eq_compact (noString : value.string? = none) :
    Node.keyText value = Json.compact value := by
  cases value with
  | string text => cases noString
  | _ => rfl

theorem keyText_string_eq_iff {text : String} (noString : other.string? = none) :
    Node.keyText (.string text) = Node.keyText other ↔ SpellsOut (.string text) other := by
  rw [keyText_eq_compact noString, Node.keyText, SpellsOut, Value.string.injEq]
  exact ⟨fun same => ⟨noString, same⟩, fun spelled => spelled.2⟩

theorem string_ne_of_string? {text : String} (noString : other.string? = none) :
    Value.string text ≠ other := by
  rintro rfl
  cases noString

theorem not_spellsOut_of_string? (noString : value.string? = none) : ¬SpellsOut value other := by
  rintro ⟨-, rfl⟩
  cases noString

theorem not_spellsOut_string (value : Value) (text : String) :
    ¬SpellsOut value (.string text) := by
  rintro ⟨noString, -⟩
  cases noString

/-- Two values become the same text if they are the same or one of them spells the other out. -/
theorem keyText_eq_iff (fit : value.NumbersFit) (otherFit : other.NumbersFit) :
    Node.keyText value = Node.keyText other ↔
      value = other ∨ SpellsOut value other ∨ SpellsOut other value := by
  cases shape : value.string? with
  | some text =>
      obtain rfl := Value.string?_eq_some_iff.mp shape
      rw [or_iff_left (not_spellsOut_string other text)]
      cases otherShape : other.string? with
      | some otherText =>
          obtain rfl := Value.string?_eq_some_iff.mp otherShape
          rw [or_iff_left (not_spellsOut_string _ otherText), Value.string.injEq]
          rfl
      | none =>
          rw [or_iff_right (string_ne_of_string? otherShape)]
          exact keyText_string_eq_iff otherShape
  | none =>
      rw [or_iff_right (not_spellsOut_of_string? shape)]
      cases otherShape : other.string? with
      | some otherText =>
          obtain rfl := Value.string?_eq_some_iff.mp otherShape
          rw [or_iff_right (string_ne_of_string? shape).symm, eq_comm]
          exact keyText_string_eq_iff shape
      | none =>
          rw [or_iff_left (not_spellsOut_of_string? otherShape), keyText_eq_compact shape,
            keyText_eq_compact otherShape, Json.compact_inj fit otherFit]

end Texts

namespace Node

/-- The text that a key becomes. -/
def asKey (key : Node) : String :=
  keyText key.toValue

/-- The texts that the keys of entries become. -/
def keyTexts (entries : List (Node × Node)) : List String :=
  entries.map fun entry => entry.1.asKey

theorem entryMembers_eq_map (entries : List (Node × Node)) :
    entryMembers entries = entries.map fun entry => (entry.1.asKey, entry.2.toValue) := by
  induction entries with
  | nil => rfl
  | cons entry entries ih => rw [entryMembers, ih, List.map_cons, asKey]

theorem keys_entryMembers (entries : List (Node × Node)) :
    Entries.keys (entryMembers entries) = keyTexts entries := by
  rw [entryMembers_eq_map, Entries.keys, List.map_map]
  rfl

theorem itemValues_eq_map (items : List Node) : itemValues items = items.map toValue := by
  induction items with
  | nil => rfl
  | cons item items ih => rw [itemValues, ih, List.map_cons]

/-- The first node is the second one or stands somewhere in it, be it within a key. -/
inductive Within : Node → Node → Prop
  | refl (node : Node) : Within node node
  | item {part item : Node} {items : List Node} (member : item ∈ items)
      (within : Within part item) : Within part (.sequence items)
  | key {part : Node} {entry : Node × Node} {entries : List (Node × Node)}
      (member : entry ∈ entries) (within : Within part entry.1) : Within part (.mapping entries)
  | value {part : Node} {entry : Node × Node} {entries : List (Node × Node)}
      (member : entry ∈ entries) (within : Within part entry.2) : Within part (.mapping entries)
  | content {part content : Node} {tag : String} (within : Within part content) :
      Within part (.tagged tag content)

theorem Proper.of_within {part node : Node} (proper : node.Proper) (within : Within part node) :
    part.Proper := by
  induction within with
  | refl => exact proper
  | item member _ ih =>
      cases proper with
      | sequence each => exact ih (each _ member)
  | key member _ ih => exact ih ((proper_mapping_iff.mp proper).keys _ member)
  | value member _ ih => exact ih ((proper_mapping_iff.mp proper).values _ member)
  | content _ ih =>
      cases proper with
      | tagged tag proper => exact ih proper

/-- A node of which nothing is dropped in its value: there are no tags in it, all its numbers
are finite, and the keys of its mappings are strings. -/
inductive Faithful : Node → Prop
  | null : Faithful .null
  | bool (value : Bool) : Faithful (.bool value)
  | whole (value : Int) : Faithful (.number (.whole value))
  | float {value : Decimal.Binary64} (finite : value.isFinite = true) :
      Faithful (.number (.float value))
  | string (text : String) : Faithful (.string text)
  | sequence {items : List Node} (each : ∀ item ∈ items, Faithful item) :
      Faithful (.sequence items)
  | mapping {entries : List (Node × Node)}
      (keys : ∀ entry ∈ entries, ∃ text, entry.1 = .string text)
      (values : ∀ entry ∈ entries, Faithful entry.2) : Faithful (.mapping entries)

variable {entries : List (Node × Node)} {node other : Node}

/-- Different strings stay different. -/
theorem nodup_asKey_of_strings (proper : ProperEntries entries)
    (strings : ∀ entry ∈ entries, ∃ text, entry.1 = .string text) :
    (keyTexts entries).Nodup := by
  refine List.pairwise_map.mpr (proper.distinct.imp_of_mem fun {former later} first second => ?_)
  obtain ⟨text, shape⟩ := strings former first
  obtain ⟨other, otherShape⟩ := strings later second
  rw [shape, otherShape]
  intro different sameKey
  have sameText : text = other := sameKey
  rw [sameText, same_string_iff.mpr rfl] at different
  cases different

theorem toValue_mapping_of_nodup (distinct : (keyTexts entries).Nodup) :
    (mapping entries).toValue =
      .object (entries.map fun entry => (entry.1.asKey, entry.2.toValue)) := by
  rw [← keys_entryMembers] at distinct
  rw [toValue, Entries.ofPairs_of_nodup distinct, entryMembers_eq_map]

/-- A faithful node can be told from its value. -/
theorem Faithful.valueNode_toValue (faithful : node.Faithful) (proper : node.Proper) :
    valueNode node.toValue = node := by
  induction faithful with
  | null => rfl
  | bool value => rfl
  | whole value => rfl
  | float finite => rw [toValue, numberValue, if_pos finite, valueNode]
  | string text => rfl
  | @sequence items _ ih =>
      cases proper with
      | sequence each =>
          have back : items.map (valueNode ∘ toValue) = items :=
            (List.map_congr_left fun item member => ih item member (each item member)).trans
              (List.map_id items)
          rw [toValue, valueNode, itemNodes_eq_map, itemValues_eq_map, List.map_map, back]
  | @mapping entries keys _ ih =>
      have own := proper_mapping_iff.mp proper
      have back : (entries.map fun entry => (entry.1.asKey, entry.2.toValue)).map
          (fun member => (Node.string member.1, valueNode member.2)) = entries := by
        rw [List.map_map]
        refine (List.map_congr_left fun entry member => ?_).trans (List.map_id entries)
        obtain ⟨text, shape⟩ := keys entry member
        refine Prod.ext ?_ (ih entry member (own.values entry member))
        rw [Function.comp_apply, shape]
        exact shape.symm
      rw [toValue_mapping_of_nodup (nodup_asKey_of_strings own keys), valueNode,
        memberNodes_eq_map, back]

/-- Different keys that are faithful have different values. -/
theorem pairwise_toValue_ne (proper : ProperEntries entries) :
    entries.Pairwise fun former later => former.1.Faithful → later.1.Faithful →
      former.1.toValue ≠ later.1.toValue := by
  refine proper.distinct.imp_of_mem fun {former later} first second different => ?_
  intro faithful otherFaithful sameValue
  have back := faithful.valueNode_toValue (proper.keys former first)
  rw [sameValue, otherFaithful.valueNode_toValue (proper.keys later second)] at back
  rw [← back, (proper.keys later second).same_refl] at different
  cases different

/-- What becomes of the entries of a mapping. -/
structure BecomeMembers (entries : List (Node × Node)) (members : Members) : Prop where
  /-- There is a member for each text of a key, in the order in which the texts come first. -/
  keys : Entries.keys members = (keyTexts entries).eraseDups
  /-- The member has the value of the last entry whose key becomes the text. -/
  last : ∀ front entry back, entries = front ++ entry :: back →
    (∀ later ∈ back, later.1.asKey ≠ entry.1.asKey) →
      Entries.get? entry.1.asKey members = some entry.2.toValue
  /-- There are as many members as entries just when the texts are different. -/
  length : members.length = entries.length ↔ (keyTexts entries).Nodup
  /-- Then every entry is a member, in its place. -/
  kept : (keyTexts entries).Nodup →
    members = entries.map fun entry => (entry.1.asKey, entry.2.toValue)

theorem becomeMembers (entries : List (Node × Node)) :
    BecomeMembers entries (Entries.ofPairs (entryMembers entries)) where
  keys := by rw [Entries.keys_ofPairs, keys_entryMembers]
  last := by
    rintro front entry back rfl last
    have absent : entry.1.asKey ∉ Entries.keys (entryMembers back) := by
      rw [keys_entryMembers, keyTexts, List.mem_map]
      rintro ⟨later, member, same⟩
      exact last later member same
    rw [entryMembers_eq_map] at absent
    rw [entryMembers_eq_map, List.map_append, List.map_cons]
    exact Entries.get?_ofPairs absent _
  length := by
    rw [← keys_entryMembers, ← Entries.length_ofPairs_eq_iff, entryMembers_eq_map, List.length_map]
  kept := by
    intro distinct
    rw [← keys_entryMembers] at distinct
    rw [Entries.ofPairs_of_nodup distinct, entryMembers_eq_map]

end Node

/-- In the value of a text, every mapping of the text's node has become an object with one member
for each text of its keys, and different keys have become the same text just when they have the
same value or one of them spells the other out.  Faithful keys have different values. -/
theorem read?_keyTexts {text : String} {value : Value} (found : read? text = some value) :
    ∃ node, readNode text = some node ∧ value = node.toValue ∧
      ∀ entries, Node.Within (.mapping entries) node →
        (entries.Pairwise fun former later => former.1.same later.1 = false) ∧
        (∃ members, (Node.mapping entries).toValue = .object members ∧
          Node.BecomeMembers entries members) ∧
        (∀ former ∈ entries, ∀ later ∈ entries, former.1.asKey = later.1.asKey ↔
          former.1.toValue = later.1.toValue ∨ SpellsOut former.1.toValue later.1.toValue ∨
            SpellsOut later.1.toValue former.1.toValue) ∧
        (entries.Pairwise fun former later => former.1.Faithful → later.1.Faithful →
          former.1.toValue ≠ later.1.toValue) := by
  obtain ⟨node, reading, rfl⟩ := Option.map_eq_some_iff.mp found
  refine ⟨node, reading, rfl, fun entries within => ?_⟩
  have proper := Node.proper_mapping_iff.mp ((proper_of_readNode reading).of_within within)
  refine ⟨proper.distinct, ⟨_, rfl, Node.becomeMembers entries⟩, ?_,
    Node.pairwise_toValue_ne proper⟩
  intro former first later second
  exact keyText_eq_iff (numbersFit_toValue _ (proper.keys former first))
    (numbersFit_toValue _ (proper.keys later second))

/-- The entries of a text with a number and a string as keys. -/
def responseEntries : List (Node × Node) :=
  [(.number (.whole 200), .string "a"), (.string "default", .string "b")]

theorem readNode_responseText :
    readNode "200: a\ndefault: b\n" = some (.mapping responseEntries) := by
  have tokens : tokens? "200: a\ndefault: b\n".toList = some [.blockMappingStart,
      .key, .scalar true ['2', '0', '0'], .value, .scalar true ['a'],
      .key, .scalar true "default".toList, .value, .scalar true ['b'], .blockEnd] := by
    decide +kernel
  rw [readNode, tokens]
  rfl

theorem read?_responseText :
    read? "200: a\ndefault: b\n" = some (Node.mapping responseEntries).toValue ∧
      (Node.mapping responseEntries).toValue =
        .object [("200", .string "a"), ("default", .string "b")] := by
  have found : read? "200: a\ndefault: b\n" = some (Node.mapping responseEntries).toValue := by
    rw [read?, readNode_responseText]
    rfl
  obtain ⟨node, reading, -, each⟩ := read?_keyTexts found
  rw [readNode_responseText, Option.some.injEq] at reading
  rw [← reading] at each
  obtain ⟨-, ⟨members, becomes, own⟩, -⟩ := each responseEntries (.refl _)
  have distinct : (Node.keyTexts responseEntries).Nodup := by decide +kernel
  rw [own.kept distinct] at becomes
  exact ⟨found, becomes.trans rfl⟩

/-- The entries of a text with a number and the string of its digits as keys. -/
def collidingEntries : List (Node × Node) :=
  [(.number (.whole 1), .string "a"), (.string "1", .string "b")]

theorem readNode_collidingText :
    readNode "1: a\n'1': b\n" = some (.mapping collidingEntries) := by
  have tokens : tokens? "1: a\n'1': b\n".toList = some [.blockMappingStart,
      .key, .scalar true ['1'], .value, .scalar true ['a'],
      .key, .scalar false ['1'], .value, .scalar true ['b'], .blockEnd] := by
    decide +kernel
  rw [readNode, tokens]
  rfl

/-- Of the two entries one is left. -/
theorem read?_collidingText :
    readNode "1: a\n'1': b\n" = some (.mapping collidingEntries) ∧
      (Node.number (.whole 1)).same (.string "1") = false ∧
      read? "1: a\n'1': b\n" = some (.object [("1", .string "b")]) := by
  refine ⟨readNode_collidingText, rfl, ?_⟩
  rw [read?, readNode_collidingText]
  rfl

end ApiAssembly.Yaml
