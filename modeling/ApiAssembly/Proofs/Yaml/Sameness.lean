import ApiAssembly.Proofs.Value.Associativity
import ApiAssembly.Proofs.Value.Extent
import ApiAssembly.Yaml.Node

/-!
# Sameness of nodes

Two mappings are the same if they have as many entries and each entry of the first is in the
second.  As no two keys of a mapping are the same, different entries of the first are found in
different places of the second, so every entry of the second is found too: sameness goes both
ways.
-/

namespace ApiAssembly.Yaml

/-- A node such as a text denotes: its whole numbers fit, and no two keys of a mapping are the
same. -/
inductive Node.Proper : Node → Prop
  | null : Proper .null
  | bool (value : Bool) : Proper (.bool value)
  | whole {value : Int} (fits : (Number.whole value).Fits) : Proper (.number (.whole value))
  | float (value : Decimal.Binary64) : Proper (.number (.float value))
  | string (text : String) : Proper (.string text)
  | sequence {items : List Node} (each : ∀ item ∈ items, Proper item) : Proper (.sequence items)
  | mapping {entries : List (Node × Node)} (keys : ∀ entry ∈ entries, Proper entry.1)
      (values : ∀ entry ∈ entries, Proper entry.2)
      (distinct : entries.Pairwise fun former later => former.1.same later.1 = false) :
      Proper (.mapping entries)
  | tagged (tag : String) {content : Node} (proper : Proper content) :
      Proper (.tagged tag content)

namespace Node

section Parts

variable {entries others : List (Node × Node)} {items otherItems : List Node}

attribute [local simp] same sameItems sameEntries

theorem sameItems_iff : sameItems items otherItems = true ↔
    List.Forall₂ (fun item other => item.same other = true) items otherItems := by
  induction items generalizing otherItems with
  | nil => cases otherItems <;> simp
  | cons item items ih => cases otherItems <;> simp [ih]

/-- The entry of a mapping is the same as that of another one. -/
def Matches (entry other : Node × Node) : Prop :=
  entry.1.same other.1 = true ∧ entry.2.same other.2 = true

theorem sameEntries_iff : sameEntries entries others = true ↔
    ∀ entry ∈ entries, ∃ other ∈ others, Matches entry other := by
  induction entries with
  | nil => simp
  | cons entry entries ih =>
      simp only [sameEntries, Bool.and_eq_true, List.any_eq_true, List.forall_mem_cons, ih, Matches]

theorem same_null_iff {other : Node} : null.same other = true ↔ other = null := by
  cases other <;> simp

theorem same_bool_iff {value : Bool} {other : Node} :
    (bool value).same other = true ↔ other = bool value := by
  cases other <;> simp [eq_comm]

theorem same_string_iff {text : String} {other : Node} :
    (string text).same other = true ↔ other = string text := by
  cases other <;> simp [eq_comm]

theorem same_number_iff {value : Number} {other : Node} :
    (number value).same other = true ↔
      ∃ otherValue, other = number otherValue ∧ value.same otherValue = true := by
  cases other <;> simp

theorem same_sequence_iff {other : Node} : (sequence items).same other = true ↔
    ∃ otherItems, other = sequence otherItems ∧
      List.Forall₂ (fun item other => item.same other = true) items otherItems := by
  cases other <;> simp [sameItems_iff]

theorem same_mapping_iff {other : Node} : (mapping entries).same other = true ↔
    ∃ others, other = mapping others ∧ entries.length = others.length ∧
      ∀ entry ∈ entries, ∃ other ∈ others, Matches entry other := by
  cases other <;> simp [sameEntries_iff]

theorem same_tagged_iff {tag : String} {content other : Node} :
    (tagged tag content).same other = true ↔
      ∃ otherContent, other = tagged tag otherContent ∧ content.same otherContent = true := by
  cases other <;> simp
  tauto

end Parts

/-- Where each of some things has a partner, no two of them the same one, and there are not
more partners than things, everyone is a partner. -/
theorem exists_of_partners {α β : Type} {related : α → β → Prop} {lefts : List α}
    {rights : List β} (few : rights.length ≤ lefts.length)
    (each : ∀ left ∈ lefts, ∃ right ∈ rights, related left right)
    (apart : lefts.Pairwise fun former later =>
      ∀ right, related former right → ¬related later right) :
    ∀ right ∈ rights, ∃ left ∈ lefts, related left right := by
  induction lefts generalizing rights with
  | nil =>
      obtain rfl := List.length_eq_zero_iff.mp (Nat.le_zero.mp few)
      simp
  | cons left lefts ih =>
      rw [List.forall_mem_cons] at each
      obtain ⟨own, others⟩ := List.pairwise_cons.mp apart
      obtain ⟨partner, member, taken⟩ := each.1
      obtain ⟨front, back, rfl⟩ := List.append_of_mem member
      have fewer : (front ++ back).length ≤ lefts.length := by
        simp only [List.length_append, List.length_cons] at few ⊢
        omega
      have elsewhere : ∀ other ∈ lefts, ∃ right ∈ front ++ back, related other right := by
        intro other inside
        obtain ⟨right, place, found⟩ := each.2 other inside
        have different : right ≠ partner := by
          rintro rfl
          exact own other inside right taken found
        refine ⟨right, ?_, found⟩
        simpa [different] using place
      intro right inside
      by_cases same : right = partner
      · exact ⟨left, List.mem_cons_self, same ▸ taken⟩
      · obtain ⟨other, place, found⟩ :=
          ih fewer elsewhere others right (by simpa [same] using inside)
        exact ⟨other, List.mem_cons_of_mem left place, found⟩

section Laws

variable {node other third : Node} {items otherItems thirdItems : List Node}

theorem sameItems_trans (each : ∀ item ∈ items, ∀ {other third : Node},
      item.same other = true → other.same third = true → item.same third = true)
    (first : List.Forall₂ (fun item other => item.same other = true) items otherItems)
    (second : List.Forall₂ (fun item other => item.same other = true) otherItems thirdItems) :
    List.Forall₂ (fun item other => item.same other = true) items thirdItems := by
  induction first generalizing thirdItems with
  | nil => exact second
  | cons own _ ih =>
      rw [List.forall_mem_cons] at each
      cases second with
      | cons next others => exact .cons (each.1 own next) (ih each.2 others)

theorem sameItems_symm (each : ∀ item ∈ items, ∀ {other : Node},
      item.same other = true → other.same item = true)
    (alike : List.Forall₂ (fun item other => item.same other = true) items otherItems) :
    List.Forall₂ (fun item other => item.same other = true) otherItems items := by
  induction alike with
  | nil => exact .nil
  | cons own _ ih =>
      rw [List.forall_mem_cons] at each
      exact .cons (each.1 own) (ih each.2)

theorem same_trans_number {value : Number} (first : (number value).same other = true)
    (second : other.same third = true) : (number value).same third = true := by
  obtain ⟨otherValue, rfl, alike⟩ := same_number_iff.mp first
  obtain ⟨thirdValue, rfl, otherAlike⟩ := same_number_iff.mp second
  exact same_number_iff.mpr ⟨thirdValue, rfl, Number.same_trans alike otherAlike⟩

theorem same_symm_number {value : Number} (alike : (number value).same other = true) :
    other.same (number value) = true := by
  obtain ⟨otherValue, rfl, alike⟩ := same_number_iff.mp alike
  refine same_number_iff.mpr ⟨value, rfl, ?_⟩
  cases value with
  | whole value =>
      cases otherValue with
      | whole otherValue =>
          obtain rfl : value = otherValue := of_decide_eq_true alike
          exact Number.same_refl _
      | float => cases alike
  | float value =>
      cases otherValue with
      | whole => cases alike
      | float otherValue => rwa [Number.same, Decimal.Binary64.same_comm]

theorem Proper.same_refl (proper : node.Proper) : node.same node = true := by
  induction proper with
  | null => rfl
  | bool value => exact same_bool_iff.mpr rfl
  | whole fits => exact same_number_iff.mpr ⟨_, rfl, Number.same_refl _⟩
  | float value => exact same_number_iff.mpr ⟨_, rfl, Number.same_refl _⟩
  | string text => exact same_string_iff.mpr rfl
  | @sequence items _ ih =>
      exact same_sequence_iff.mpr ⟨items, rfl, List.forall₂_same.mpr ih⟩
  | @mapping entries _ _ _ keysIh valuesIh =>
      exact same_mapping_iff.mpr ⟨entries, rfl, rfl, fun entry member =>
        ⟨entry, member, keysIh entry member, valuesIh entry member⟩⟩
  | @tagged tag content _ ih => exact same_tagged_iff.mpr ⟨content, rfl, ih⟩

theorem Proper.same_trans (proper : node.Proper) (first : node.same other = true)
    (second : other.same third = true) : node.same third = true := by
  induction proper generalizing other third with
  | null =>
      rw [same_null_iff] at first
      rwa [first] at second
  | bool value =>
      rw [same_bool_iff] at first
      rwa [first] at second
  | string text =>
      rw [same_string_iff] at first
      rwa [first] at second
  | whole fits => exact same_trans_number first second
  | float value => exact same_trans_number first second
  | @sequence items each ih =>
      obtain ⟨others, rfl, alike⟩ := same_sequence_iff.mp first
      obtain ⟨thirds, rfl, otherAlike⟩ := same_sequence_iff.mp second
      exact same_sequence_iff.mpr ⟨thirds, rfl, sameItems_trans ih alike otherAlike⟩
  | @mapping entries keys values distinct keysIh valuesIh =>
      obtain ⟨others, rfl, lengths, found⟩ := same_mapping_iff.mp first
      obtain ⟨thirds, rfl, otherLengths, otherFound⟩ := same_mapping_iff.mp second
      refine same_mapping_iff.mpr ⟨thirds, rfl, lengths.trans otherLengths, ?_⟩
      intro entry member
      obtain ⟨other, place, sameKey, sameValue⟩ := found entry member
      obtain ⟨third, otherPlace, otherKey, otherValue⟩ := otherFound other place
      exact ⟨third, otherPlace, keysIh entry member sameKey otherKey,
        valuesIh entry member sameValue otherValue⟩
  | @tagged tag content proper ih =>
      obtain ⟨others, rfl, alike⟩ := same_tagged_iff.mp first
      obtain ⟨thirds, rfl, otherAlike⟩ := same_tagged_iff.mp second
      exact same_tagged_iff.mpr ⟨thirds, rfl, ih alike otherAlike⟩

/-- What is the same as a proper node, the node is the same as. -/
theorem Proper.same_symm (proper : node.Proper) (alike : node.same other = true) :
    other.same node = true := by
  induction proper generalizing other with
  | null =>
      rw [same_null_iff.mp alike]
      rfl
  | bool value =>
      rw [same_bool_iff.mp alike]
      exact same_bool_iff.mpr rfl
  | string text =>
      rw [same_string_iff.mp alike]
      exact same_string_iff.mpr rfl
  | whole fits => exact same_symm_number alike
  | float value => exact same_symm_number alike
  | @sequence items each ih =>
      obtain ⟨others, rfl, each⟩ := same_sequence_iff.mp alike
      exact same_sequence_iff.mpr ⟨items, rfl, sameItems_symm ih each⟩
  | @mapping entries keys values distinct keysIh valuesIh =>
      obtain ⟨others, rfl, lengths, found⟩ := same_mapping_iff.mp alike
      have apart : entries.Pairwise fun former later =>
          ∀ other, Matches former other → ¬Matches later other := by
        refine distinct.imp_of_mem fun {former later} formerMember laterMember different => ?_
        rintro other ⟨formerKey, -⟩ ⟨laterKey, -⟩
        have back := keysIh later laterMember laterKey
        rw [(keys former formerMember).same_trans formerKey back] at different
        cases different
      refine same_mapping_iff.mpr ⟨entries, rfl, lengths.symm, ?_⟩
      intro other place
      obtain ⟨entry, member, sameKey, sameValue⟩ :=
        exists_of_partners (Nat.le_of_eq lengths.symm) found apart other place
      exact ⟨entry, member, keysIh entry member sameKey, valuesIh entry member sameValue⟩
  | @tagged tag content proper ih =>
      obtain ⟨others, rfl, inside⟩ := same_tagged_iff.mp alike
      exact same_tagged_iff.mpr ⟨content, rfl, ih inside⟩

theorem Proper.same_comm (proper : node.Proper) (otherProper : other.Proper) :
    node.same other = other.same node :=
  Bool.eq_iff_iff.mpr ⟨proper.same_symm, otherProper.same_symm⟩

end Laws

end Node

/-- The entries of a proper mapping. -/
structure ProperEntries (entries : List (Node × Node)) : Prop where
  keys : ∀ entry ∈ entries, entry.1.Proper
  values : ∀ entry ∈ entries, entry.2.Proper
  distinct : entries.Pairwise fun former later => former.1.same later.1 = false

theorem Node.proper_mapping_iff {entries : List (Node × Node)} :
    (mapping entries).Proper ↔ ProperEntries entries := by
  constructor
  · rintro (_ | _ | _ | _ | _ | _ | ⟨keys, values, distinct⟩)
    exact ⟨keys, values, distinct⟩
  · rintro ⟨keys, values, distinct⟩
    exact .mapping keys values distinct

namespace ProperEntries

variable {entries others : List (Node × Node)} {entry : Node × Node}

theorem nil : ProperEntries [] :=
  ⟨by simp, by simp, .nil⟩

theorem tail (proper : ProperEntries (entry :: entries)) : ProperEntries entries :=
  ⟨(List.forall_mem_cons.mp proper.keys).2, (List.forall_mem_cons.mp proper.values).2,
    (List.pairwise_cons.mp proper.distinct).2⟩

theorem concat (proper : ProperEntries entries) (keyProper : entry.1.Proper)
    (valueProper : entry.2.Proper) (fresh : Node.hasKey entries entry.1 = false) :
    ProperEntries (entries ++ [entry]) := by
  rw [Node.hasKey, List.any_eq_false] at fresh
  refine ⟨?_, ?_, List.pairwise_append.mpr ⟨proper.distinct, List.pairwise_singleton _ _, ?_⟩⟩
  · exact List.forall_mem_append.mpr ⟨proper.keys, List.forall_mem_singleton.mpr keyProper⟩
  · exact List.forall_mem_append.mpr ⟨proper.values, List.forall_mem_singleton.mpr valueProper⟩
  · intro former member later inside
    rw [List.mem_singleton.mp inside, (proper.keys former member).same_comm keyProper]
    simpa using fresh former member

/-- Entries with different keys, both of them proper. -/
def Apart (former later : Node × Node) : Prop :=
  former.1.Proper ∧ later.1.Proper ∧ former.1.same later.1 = false

theorem Apart.symm {former later : Node × Node} (apart : Apart former later) :
    Apart later former := by
  obtain ⟨formerProper, laterProper, different⟩ := apart
  exact ⟨laterProper, formerProper, formerProper.same_comm laterProper ▸ different⟩

/-- The order of the entries does not matter, as sameness goes both ways. -/
theorem perm (proper : ProperEntries entries) (reordered : entries.Perm others) :
    ProperEntries others := by
  refine ⟨fun entry member => proper.keys entry (reordered.mem_iff.mpr member),
    fun entry member => proper.values entry (reordered.mem_iff.mpr member), ?_⟩
  have apart : entries.Pairwise Apart :=
    proper.distinct.imp_of_mem fun former later different =>
      ⟨proper.keys _ former, proper.keys _ later, different⟩
  exact (apart.perm reordered Apart.symm).imp fun apart => apart.2.2

/-- Other values under the same keys. -/
theorem of_keys (proper : ProperEntries entries)
    (sameKeys : others.map Prod.fst = entries.map Prod.fst)
    (values : ∀ entry ∈ others, entry.2.Proper) : ProperEntries others := by
  have keys : ∀ key ∈ entries.map Prod.fst, key.Proper := by
    simpa only [List.forall_mem_map] using proper.keys
  have distinct : (entries.map Prod.fst).Pairwise fun former later => former.same later = false :=
    List.pairwise_map.mpr proper.distinct
  rw [← sameKeys] at keys distinct
  exact ⟨List.forall_mem_map.mp keys, values, List.pairwise_map.mp distinct⟩

end ProperEntries

end ApiAssembly.Yaml
