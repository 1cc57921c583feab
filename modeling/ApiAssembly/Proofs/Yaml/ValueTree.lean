import ApiAssembly.Proofs.Yaml.ValueTokens
import ApiAssembly.Yaml.Tree

/-!
# Trees of written values

The tokens of a value are read as a tree of the same shape, without anchors and tags.
-/

namespace ApiAssembly.Yaml

section Trees

variable {ν : Type}

def textTree (text : String) : Tree ν :=
  .scalar {} (styleOf text = .plain) text

mutual

/-- The tree of a value. -/
def valueTree : Value → Tree ν
  | .null => .scalar {} true "null"
  | .bool true => .scalar {} true "true"
  | .bool false => .scalar {} true "false"
  | .number value => .scalar {} true (String.ofList (writeNumber value))
  | .string text => textTree text
  | .array items => .sequence {} (itemTrees items)
  | .object members => .mapping {} (memberTrees members)

def itemTrees : List Value → List (Tree ν)
  | [] => []
  | item :: items => valueTree item :: itemTrees items

def memberTrees : List (String × Value) → List (Tree ν × Tree ν)
  | [] => []
  | (key, value) :: members => (textTree key, valueTree value) :: memberTrees members

end

end Trees

section Reading

variable {handles : Handles} {tokens more rest tail : List Token} {indented : Bool} {fuel : Nat}
  {context : Context} {value : Value} {key : String}

theorem readNode?_scalar (positive : 0 < fuel) (plain : Bool) (text : String) :
    readNode? handles fuel context (.scalar plain text.toList :: rest) =
      some (.scalar {} plain text, rest) := by
  obtain ⟨fuel, rfl⟩ := Nat.exists_eq_add_of_lt positive
  simp [readNode?, readLabel?, scalarNode]

theorem readNode?_text (positive : 0 < fuel) :
    readNode? handles fuel context (textToken key :: rest) = some (textTree key, rest) :=
  readNode?_scalar positive _ key

/-- A value that is no block is read wherever it stands. -/
theorem readNode?_flat (value : Value) (flat : inlineTokens value = flatTokens value)
    (enough : (flatTokens value).length ≤ fuel) :
    readNode? handles fuel context (flatTokens value ++ rest) = some (valueTree value, rest) := by
  have positive : 0 < fuel := by
    refine Nat.lt_of_lt_of_le ?_ enough
    cases value with
    | bool value => cases value <;> decide
    | _ => exact Nat.succ_pos _
  cases value with
  | null => exact readNode?_scalar positive true "null"
  | bool value =>
      cases value with
      | true => exact readNode?_scalar positive true "true"
      | false => exact readNode?_scalar positive true "false"
  | number value =>
      have read := @readNode?_scalar handles rest fuel context positive true
        (String.ofList (writeNumber value))
      rw [String.toList_ofList] at read
      exact read
  | string text => exact readNode?_text positive
  | array items =>
      cases items with
      | nil =>
          obtain ⟨fuel, rfl⟩ := Nat.exists_eq_add_of_le' enough
          simp [flatTokens, readNode?, readLabel?, readFlowSequence?, valueTree, itemTrees]
      | cons item items => simp [inlineTokens, flatTokens] at flat
  | object members =>
      cases members with
      | nil =>
          obtain ⟨fuel, rfl⟩ := Nat.exists_eq_add_of_le' enough
          simp [flatTokens, readNode?, readLabel?, readFlowMapping?, valueTree, memberTrees]
      | cons member members => simp [inlineTokens, flatTokens] at flat

/-- What stands behind the items of a block sequence, and what follows the sequence.  One that
is not indented ends in front of any other token. -/
inductive SequenceEnd : Bool → List Token → List Token → Prop
  | indented (rest : List Token) : SequenceEnd true (.blockEnd :: rest) rest
  | flush {rest : List Token} (ends : rest.head? ≠ some .blockEntry) : SequenceEnd false rest rest

theorem readBlockSequence?_end (ends : SequenceEnd indented tail rest) (positive : 0 < fuel) :
    readBlockSequence? handles fuel indented tail = some ([], rest) := by
  obtain ⟨fuel, rfl⟩ := Nat.exists_eq_add_of_lt positive
  cases ends with
  | indented => simp [readBlockSequence?]
  | flush ends =>
      rw [readBlockSequence?.eq_def]
      simp only
      split
      next => exact absurd rfl ends
      next => rfl
      next => rfl

theorem readBlockSequence?_item {item : Tree String} {items : List (Tree String)}
    (present : endsBlockEntry indented tokens.head? = false)
    (first : readNode? handles fuel .block tokens = some (item, more))
    (later : readBlockSequence? handles fuel indented more = some (items, rest)) :
    readBlockSequence? handles (fuel + 1) indented (.blockEntry :: tokens) =
      some (item :: items, rest) := by
  simp [readBlockSequence?, present, first, later]

theorem readBlockMapping?_member {tree : Tree String} {entries : List (Tree String × Tree String)}
    (positive : 0 < fuel) (present : endsBlockPart tokens.head? = false)
    (first : readNode? handles fuel .entry tokens = some (tree, more))
    (later : readBlockMapping? handles fuel more = some (entries, rest)) :
    readBlockMapping? handles (fuel + 1) (.key :: textToken key :: .value :: tokens) =
      some ((textTree key, tree) :: entries, rest) := by
  have keyPresent : endsBlockPart (some (textToken key)) = false := rfl
  simp [readBlockMapping?, keyPresent, present, readNode?_text positive, first, later]

theorem readNode?_sequence {items : List (Tree String)} (outside : context ≠ .flow)
    (read : readBlockSequence? handles fuel true tokens = some (items, rest)) :
    readNode? handles (fuel + 1) context (.blockSequenceStart :: tokens) =
      some (.sequence {} items, rest) := by
  simp [readNode?, readLabel?, outside, read]

theorem readNode?_flushSequence {items : List (Tree String)}
    (read : readBlockSequence? handles fuel false (.blockEntry :: tokens) = some (items, rest)) :
    readNode? handles (fuel + 1) .entry (.blockEntry :: tokens) =
      some (.sequence {} items, rest) := by
  simp [readNode?, readLabel?, read]

theorem readNode?_mapping {entries : List (Tree String × Tree String)} (outside : context ≠ .flow)
    (read : readBlockMapping? handles fuel tokens = some (entries, rest)) :
    readNode? handles (fuel + 1) context (.blockMappingStart :: tokens) =
      some (.mapping {} entries, rest) := by
  simp [readNode?, readLabel?, outside, read]

/-- The first token of a value begins a node. -/
theorem endsBlockEntry_inlineTokens (value : Value) :
    endsBlockEntry indented (inlineTokens value ++ rest).head? = false := by
  cases value with
  | bool value => cases value <;> rfl
  | array items => cases items <;> rfl
  | object members => cases members <;> rfl
  | _ => rfl

theorem endsBlockPart_inlineTokens (value : Value) :
    endsBlockPart (inlineTokens value ++ rest).head? = false := by
  cases value with
  | bool value => cases value <;> rfl
  | array items => cases items <;> rfl
  | object members => cases members <;> rfl
  | _ => rfl

theorem endsBlockPart_behindKeyTokens (value : Value) :
    endsBlockPart (behindKeyTokens value ++ rest).head? = false := by
  cases value with
  | bool value => cases value <;> rfl
  | array items => cases items <;> rfl
  | object members => cases members <;> rfl
  | _ => rfl

theorem head?_memberTokens (members : List (String × Value)) :
    (memberTokens members ++ .blockEnd :: rest).head? ≠ some .blockEntry := by
  cases members with
  | nil => simp [memberTokens]
  | cons member members => simp [memberTokens]

mutual

/-- A value is read from its tokens, whatever follows. -/
theorem readNode?_inline (value : Value) {fuel : Nat} {context : Context} {rest : List Token}
    (outside : context ≠ .flow) (enough : (inlineTokens value).length ≤ fuel) :
    readNode? handles fuel context (inlineTokens value ++ rest) = some (valueTree value, rest) :=
  match value with
  | .array (item :: items) => by
      rw [inlineTokens, List.length_append, List.length_cons, List.length_singleton] at enough
      obtain ⟨fuel, rfl⟩ := Nat.exists_eq_add_of_le' (Nat.le_of_add_left_le enough)
      have read := readBlockSequence?_items (item :: items) (.indented rest)
        (by omega : (itemTokens (item :: items)).length + 1 ≤ fuel)
      rw [inlineTokens, List.append_assoc, valueTree]
      exact readNode?_sequence outside read
  | .object (member :: members) => by
      rw [inlineTokens, List.length_append, List.length_cons, List.length_singleton] at enough
      obtain ⟨fuel, rfl⟩ := Nat.exists_eq_add_of_le' (Nat.le_of_add_left_le enough)
      have read := @readBlockMapping?_members (member :: members) fuel rest (by omega)
      rw [inlineTokens, List.append_assoc, valueTree]
      exact readNode?_mapping outside read
  | .array [] => readNode?_flat (.array []) rfl enough
  | .object [] => readNode?_flat (.object []) rfl enough
  | .null => readNode?_flat .null rfl enough
  | .bool value => by
      cases value with
      | true => exact readNode?_flat (.bool true) rfl enough
      | false => exact readNode?_flat (.bool false) rfl enough
  | .number number => readNode?_flat (.number number) rfl enough
  | .string text => readNode?_flat (.string text) rfl enough

theorem readNode?_behindKey (value : Value) {fuel : Nat} {rest : List Token}
    (ends : rest.head? ≠ some .blockEntry) (enough : (behindKeyTokens value).length + 2 ≤ fuel) :
    readNode? handles fuel .entry (behindKeyTokens value ++ rest) = some (valueTree value, rest) :=
  match value with
  | .array (item :: items) => by
      rw [behindKeyTokens] at enough
      obtain ⟨fuel, rfl⟩ := Nat.exists_eq_add_of_le' (Nat.le_of_add_left_le enough)
      have read := readBlockSequence?_items (item :: items) (.flush ends)
        (by omega : (itemTokens (item :: items)).length + 1 ≤ fuel + 1)
      rw [behindKeyTokens, valueTree]
      exact readNode?_flushSequence read
  | .object (member :: members) => by
      rw [behindKeyTokens, List.length_append, List.length_cons, List.length_singleton] at enough
      obtain ⟨fuel, rfl⟩ := Nat.exists_eq_add_of_le' (Nat.le_of_add_left_le enough)
      have read := @readBlockMapping?_members (member :: members) (fuel + 1) rest (by omega)
      rw [behindKeyTokens, List.append_assoc, valueTree]
      exact readNode?_mapping nofun read
  | .array [] => readNode?_flat (.array []) rfl (Nat.le_of_add_right_le enough)
  | .object [] => readNode?_flat (.object []) rfl (Nat.le_of_add_right_le enough)
  | .null => readNode?_flat .null rfl (Nat.le_of_add_right_le enough)
  | .bool value => by
      cases value with
      | true => exact readNode?_flat (.bool true) rfl (Nat.le_of_add_right_le enough)
      | false => exact readNode?_flat (.bool false) rfl (Nat.le_of_add_right_le enough)
  | .number number => readNode?_flat (.number number) rfl (Nat.le_of_add_right_le enough)
  | .string text => readNode?_flat (.string text) rfl (Nat.le_of_add_right_le enough)

theorem readBlockSequence?_items (items : List Value) {fuel : Nat} {indented : Bool}
    {tail rest : List Token} (ends : SequenceEnd indented tail rest)
    (enough : (itemTokens items).length + 1 ≤ fuel) :
    readBlockSequence? handles fuel indented (itemTokens items ++ tail) =
      some (itemTrees items, rest) :=
  match items with
  | [] => readBlockSequence?_end ends (Nat.lt_of_lt_of_le (Nat.succ_pos _) enough)
  | item :: items => by
      rw [itemTokens, List.cons_append, List.length_cons, List.length_append] at enough
      obtain ⟨fuel, rfl⟩ := Nat.exists_eq_add_of_le' (Nat.le_of_add_left_le enough)
      have first := @readNode?_inline item fuel .block (itemTokens items ++ tail) nofun (by omega)
      have later := readBlockSequence?_items items ends (by omega : _ ≤ fuel)
      rw [itemTokens, List.cons_append, List.cons_append, List.append_assoc]
      exact readBlockSequence?_item (endsBlockEntry_inlineTokens item) first later

theorem readBlockMapping?_members (members : List (String × Value)) {fuel : Nat}
    {rest : List Token} (enough : (memberTokens members).length + 1 ≤ fuel) :
    readBlockMapping? handles fuel (memberTokens members ++ .blockEnd :: rest) =
      some (memberTrees members, rest) :=
  match members with
  | [] => by
      obtain ⟨fuel, rfl⟩ := Nat.exists_eq_add_of_le' (Nat.le_of_add_left_le enough)
      simp [memberTokens, memberTrees, readBlockMapping?]
  | (key, value) :: members => by
      rw [memberTokens, List.length_append, List.length_cons, List.length_cons,
        List.length_cons] at enough
      obtain ⟨fuel, rfl⟩ := Nat.exists_eq_add_of_le' (Nat.le_of_add_left_le enough)
      have later := @readBlockMapping?_members members fuel rest (by omega)
      rw [memberTokens, List.append_assoc]
      by_cases simple : isSimpleKey key = true
      · rw [if_pos simple] at enough ⊢
        exact readBlockMapping?_member (by omega) (endsBlockPart_behindKeyTokens value)
          (readNode?_behindKey value (head?_memberTokens members) (by omega)) later
      · rw [if_neg simple] at enough ⊢
        exact readBlockMapping?_member (by omega) (endsBlockPart_inlineTokens value)
          (readNode?_inline value nofun (by omega)) later

end

/-- A document that is a mapping with entries. -/
theorem readDocument?_inlineTokens {members : Members} (inhabited : members ≠ []) :
    readDocument? (inlineTokens (.object members)) = some (some (valueTree (.object members))) := by
  obtain ⟨member, members, rfl⟩ := List.exists_cons_of_ne_nil inhabited
  have read := @readNode?_inline ([] ++ defaultHandles) (.object (member :: members))
    (2 * (inlineTokens (.object (member :: members))).length + 2) .block [] nofun (by omega)
  rw [List.append_nil] at read
  have begins : inlineTokens (.object (member :: members)) =
      .blockMappingStart :: (memberTokens (member :: members) ++ [.blockEnd]) := by
    rw [inlineTokens, List.cons_append]
  generalize inlineTokens (.object (member :: members)) = tokens at read begins
  subst begins
  have noDirective : readDirectives? false []
      (.blockMappingStart :: (memberTokens (member :: members) ++ [.blockEnd])) =
      some ([], .blockMappingStart :: (memberTokens (member :: members) ++ [.blockEnd])) := rfl
  simp only [readDocument?, noDirective, Option.bind_eq_bind, Option.bind_some, read]
  simp

end Reading

end ApiAssembly.Yaml
