import ApiAssembly.Value.Reference
import Mathlib.Data.List.Basic

/-!
# Positions in a value

All parts of a value, at whatever depth, with the steps that lead to them.  The values under
a key are those at the positions where the last step and no step before it has the key.
-/

namespace ApiAssembly

namespace Value

/-- A step from a value to one of its parts. -/
inductive Step where
  | member (key : String)
  | item (index : Nat)
deriving DecidableEq

structure Position where
  path : List Step
  value : Value

/-- The position as it is seen from a value that holds the first one in a step. -/
def Position.behind (step : Step) (position : Position) : Position :=
  ⟨step :: position.path, position.value⟩

mutual

/-- The positions of a value in the order of the document, a part behind its whole. -/
def positions : Value → List Position
  | .array items => ⟨[], .array items⟩ :: itemPositions 0 items
  | .object members => ⟨[], .object members⟩ :: memberPositions members
  | other => [⟨[], other⟩]

def itemPositions (index : Nat) : List Value → List Position
  | [] => []
  | item :: rest =>
    item.positions.map (Position.behind (.item index)) ++ itemPositions (index + 1) rest

def memberPositions : List (String × Value) → List Position
  | [] => []
  | (key, value) :: rest =>
    value.positions.map (Position.behind (.member key)) ++ memberPositions rest

end

/-- The last step of the path, and no step before it, has the key. -/
def Position.isFirstUnder (key : String) (position : Position) : Bool :=
  position.path.getLast? = some (.member key) && !position.path.dropLast.contains (.member key)

/-- What stands behind another step is under a key as it is without the step. -/
theorem isFirstUnder_behind {key : String} {step : Step} (other : step ≠ .member key)
    (position : Position) :
    (position.behind step).isFirstUnder key = position.isFirstUnder key := by
  obtain ⟨path, value⟩ := position
  cases path with
  | nil => simp [Position.isFirstUnder, Position.behind, other]
  | cons first rest =>
      have different : Step.member key ≠ step := Ne.symm other
      simp [Position.isFirstUnder, Position.behind, different]

/-- Behind a step with the key only the value at its end is the first under the key. -/
theorem isFirstUnder_behind_member (key : String) (position : Position) :
    (position.behind (.member key)).isFirstUnder key = position.path.isEmpty := by
  obtain ⟨path, value⟩ := position
  cases path <;> simp [Position.isFirstUnder, Position.behind]

section Root

theorem filter_isEmpty_map_behind (step : Step) (inner : List Position) :
    (inner.map (Position.behind step)).filter (fun position => position.path.isEmpty) = [] := by
  simp [Position.behind]

theorem filter_isEmpty_itemPositions (index : Nat) (items : List Value) :
    (itemPositions index items).filter (fun position => position.path.isEmpty) = [] := by
  induction items generalizing index with
  | nil => rfl
  | cons item items ih =>
      rw [itemPositions, List.filter_append, filter_isEmpty_map_behind, ih, List.nil_append]

theorem filter_isEmpty_memberPositions (members : Members) :
    (memberPositions members).filter (fun position => position.path.isEmpty) = [] := by
  induction members with
  | nil => rfl
  | cons member members ih =>
      rw [memberPositions, List.filter_append, filter_isEmpty_map_behind, ih, List.nil_append]

/-- No step leads to the value itself and to nothing else. -/
theorem filter_isEmpty_positions (value : Value) :
    value.positions.filter (fun position => position.path.isEmpty) = [⟨[], value⟩] := by
  cases value with
  | array items =>
      rw [positions, List.filter_cons_of_pos rfl, filter_isEmpty_itemPositions]
  | object members =>
      rw [positions, List.filter_cons_of_pos rfl, filter_isEmpty_memberPositions]
  | _ => rfl

end Root

theorem isFirstUnder_iff {key : String} {position : Position} :
    position.isFirstUnder key = true ↔
      ∃ path, position.path = path ++ [.member key] ∧ .member key ∉ path := by
  simp only [Position.isFirstUnder, Bool.and_eq_true, decide_eq_true_eq, Bool.not_eq_true',
    List.contains_eq_mem, decide_eq_false_iff_not]
  constructor
  · rintro ⟨last, fresh⟩
    obtain ⟨path, whole⟩ := List.getLast?_eq_some_iff.mp last
    rw [whole, List.dropLast_concat] at fresh
    exact ⟨path, whole, fresh⟩
  · rintro ⟨path, whole, fresh⟩
    rw [whole, List.getLast?_concat, List.dropLast_concat]
    exact ⟨rfl, fresh⟩

/-- A part is directly held by a value, in a member or as an item. -/
inductive HasPart : Value → Step → Value → Prop
  | member {members : Members} {key : String} {part : Value} (inside : (key, part) ∈ members) :
      HasPart (.object members) (.member key) part
  | item {items : List Value} {index : Nat} {part : Value} (inside : items[index]? = some part) :
      HasPart (.array items) (.item index) part

section Membership

theorem mem_memberPositions {members : Members} {position : Position} :
    position ∈ memberPositions members ↔
      ∃ member ∈ members, ∃ inner ∈ member.2.positions,
        inner.behind (.member member.1) = position := by
  induction members with
  | nil => simp [memberPositions]
  | cons member members ih =>
      rw [memberPositions, List.mem_append, List.mem_map, ih]
      simp

theorem mem_itemPositions {start : Nat} {items : List Value} {position : Position} :
    position ∈ itemPositions start items ↔
      ∃ (index : Nat) (item : Value), items[index]? = some item ∧ ∃ inner ∈ item.positions,
        inner.behind (.item (start + index)) = position := by
  induction items generalizing start with
  | nil => simp [itemPositions]
  | cons first items ih =>
      rw [itemPositions, List.mem_append, List.mem_map, ih]
      constructor
      · rintro (⟨inner, member, rfl⟩ | ⟨index, item, found, inner, member, rfl⟩)
        · exact ⟨0, first, rfl, inner, member, rfl⟩
        · exact ⟨index + 1, item, found, inner, member, by rw [Nat.add_right_comm]; rfl⟩
      · rintro ⟨index, item, found, inner, member, rfl⟩
        cases index with
        | zero =>
            rw [List.getElem?_cons_zero, Option.some.injEq] at found
            exact .inl ⟨inner, found ▸ member, rfl⟩
        | succ index =>
            refine .inr ⟨index, item, found, inner, member, ?_⟩
            rw [Nat.add_right_comm]
            rfl

/-- A position is that of the value itself or one in a part of it. -/
theorem mem_positions {value : Value} {position : Position} :
    position ∈ value.positions ↔ position = ⟨[], value⟩ ∨
      ∃ step part, value.HasPart step part ∧ ∃ inner ∈ part.positions,
        inner.behind step = position := by
  cases value with
  | array items =>
      rw [positions, List.mem_cons, mem_itemPositions]
      constructor
      · rintro (root | ⟨index, item, found, inner⟩)
        · exact .inl root
        · exact .inr ⟨.item index, item, .item found, by simpa using inner⟩
      · rintro (root | ⟨step, part, ⟨⟩ | found, inner⟩)
        · exact .inl root
        · exact .inr ⟨_, part, found, by simpa using inner⟩
  | object members =>
      rw [positions, List.mem_cons, mem_memberPositions]
      constructor
      · rintro (root | ⟨member, inside, inner⟩)
        · exact .inl root
        · exact .inr ⟨.member member.1, member.2, .member inside, inner⟩
      · rintro (root | ⟨step, part, inside | ⟨⟩, inner⟩)
        · exact .inl root
        · exact .inr ⟨_, inside, inner⟩
  | _ =>
      constructor
      · intro root
        exact .inl (List.mem_singleton.mp root)
      · rintro (root | ⟨step, part, held, -⟩)
        · exact List.mem_singleton.mpr root
        · cases held

theorem mem_positions_nil {value part : Value} :
    ⟨[], part⟩ ∈ value.positions ↔ part = value := by
  rw [mem_positions]
  simp [Position.behind]

theorem mem_positions_cons {value part : Value} {step : Step} {path : List Step} :
    ⟨step :: path, part⟩ ∈ value.positions ↔
      ∃ middle, value.HasPart step middle ∧ ⟨path, part⟩ ∈ middle.positions := by
  rw [mem_positions]
  constructor
  · rintro (root | ⟨first, middle, held, ⟨inner, last⟩, member, same⟩)
    · simp at root
    · simp only [Position.behind, Position.mk.injEq, List.cons.injEq] at same
      obtain ⟨⟨rfl, rfl⟩, rfl⟩ := same
      exact ⟨middle, held, member⟩
  · rintro ⟨middle, held, member⟩
    exact .inr ⟨step, middle, held, _, member, rfl⟩

/-- Steps lead to a part if those before the last lead to a value that holds it. -/
theorem mem_positions_concat {value part : Value} {path : List Step} {step : Step} :
    ⟨path ++ [step], part⟩ ∈ value.positions ↔
      ∃ whole, ⟨path, whole⟩ ∈ value.positions ∧ whole.HasPart step part := by
  induction path generalizing value with
  | nil => simp [mem_positions_cons, mem_positions_nil]
  | cons first path ih =>
      rw [List.cons_append, mem_positions_cons]
      constructor
      · rintro ⟨middle, held, member⟩
        obtain ⟨whole, inner, last⟩ := ih.mp member
        exact ⟨whole, mem_positions_cons.mpr ⟨middle, held, inner⟩, last⟩
      · rintro ⟨whole, member, last⟩
        obtain ⟨middle, held, inner⟩ := mem_positions_cons.mp member
        exact ⟨middle, held, ih.mpr ⟨whole, inner, last⟩⟩

end Membership

/-- The values that stand first under a key, in the order of their positions. -/
def firstUnder (key : String) (positions : List Position) : List Value :=
  (positions.filter (Position.isFirstUnder key)).map Position.value

theorem firstUnder_append (key : String) (front back : List Position) :
    firstUnder key (front ++ back) = firstUnder key front ++ firstUnder key back := by
  rw [firstUnder, List.filter_append, List.map_append, firstUnder, firstUnder]

theorem firstUnder_map_behind {key : String} {step : Step} (other : step ≠ .member key)
    (inner : List Position) :
    firstUnder key (inner.map (Position.behind step)) = firstUnder key inner := by
  rw [firstUnder, List.filter_map, List.map_map, firstUnder]
  congr 1
  apply List.filter_congr
  intro position _
  exact isFirstUnder_behind other position

theorem firstUnder_map_behind_member (key : String) (value : Value) :
    firstUnder key (value.positions.map (Position.behind (.member key))) = [value] := by
  have first : value.positions.filter (Position.isFirstUnder key ∘ Position.behind (.member key)) =
      [⟨[], value⟩] := by
    rw [← filter_isEmpty_positions value]
    apply List.filter_congr
    intro position _
    exact isFirstUnder_behind_member key position
  rw [firstUnder, List.filter_map, first]
  rfl

mutual

/-- The values under a key are those at the positions that the key comes to first. -/
theorem keyed_eq_firstUnder (key : String) :
    (value : Value) → value.keyed key = firstUnder key value.positions
  | .array items => keyedItems_eq_firstUnder key 0 items
  | .object members => keyedMembers_eq_firstUnder key members
  | .null | .bool _ | .number _ | .string _ => rfl

theorem keyedItems_eq_firstUnder (key : String) (index : Nat) :
    (items : List Value) → keyedItems key items = firstUnder key (itemPositions index items)
  | [] => rfl
  | item :: items => by
      rw [keyedItems, itemPositions, firstUnder_append, firstUnder_map_behind (by simp),
        keyed_eq_firstUnder key item, keyedItems_eq_firstUnder key (index + 1) items]

theorem keyedMembers_eq_firstUnder (key : String) :
    (members : List (String × Value)) →
      keyedMembers key members = firstUnder key (memberPositions members)
  | [] => rfl
  | (name, value) :: members => by
      rw [keyedMembers, memberPositions, firstUnder_append,
        keyedMembers_eq_firstUnder key members]
      by_cases same : name = key
      · rw [if_pos same, same, firstUnder_map_behind_member]
      · rw [if_neg same, firstUnder_map_behind (by simp [same]), keyed_eq_firstUnder key value]

end

end Value

end ApiAssembly
