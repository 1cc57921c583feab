import ApiAssembly.Proofs.Comment.Group
import ApiAssembly.Proofs.Text.Line

/-!
# The depth of braces

The type of a tag stands in braces and may go on over several lines.  Read below each other,
the lines have a depth behind every character: the number of braces that are open there.  The
type ends at the first brace behind which no brace is open, and the lines are cut there without
a loss.
-/

namespace ApiAssembly.Comment

open Text (joinLines trim trimStart)

/-- The number of braces that are open behind a text.  A closing brace closes nothing if none
is open. -/
def braceDepth (text : List Char) : Nat :=
  text.foldl (depthBehind '{' '}') 0

/-- What is read of a group in braces, given the text behind the opening brace: the type, the
text behind the group on its last line, and the number of further lines that the group takes. -/
def typeGroup? (line : List Char) (more : List (List Char)) :
    Option (String × List Char × Nat) :=
  (closeBraces 0 line more).map fun (inside, after, unused) =>
    (String.ofList (trim inside), after, more.length - unused.length)

/-- The first of the lines begins with a group that is closed on the line with the given number;
this is the first place where no brace is open. -/
structure ClosesAt (lines : List (List Char)) (inner after : List Char) (consumed : Nat) :
    Prop where
  consumed_lt : consumed < lines.length
  taken : joinLines (lines.take (consumed + 1)) = '{' :: inner ++ '}' :: after
  closed : braceDepth ('{' :: inner ++ ['}']) = 0
  stays_open : ∀ front, front <+: '{' :: inner → front ≠ [] → braceDepth front ≠ 0
  single : '\n' ∉ after

section Depth

variable {depth left : Nat} {text inside rest : List Char} {c : Char}

theorem foldl_depthBehind_cons (depth : Nat) (c : Char) (text : List Char) :
    (c :: text).foldl (depthBehind '{' '}') depth =
      text.foldl (depthBehind '{' '}') (depthBehind '{' '}' depth c) := rfl

theorem braceDepth_cons (text : List Char) :
    braceDepth ('{' :: text) = text.foldl (depthBehind '{' '}') 1 := rfl

/-- The brace around a group counts as one more that is open, until a brace closes it. -/
theorem depthBehind_succ (within : ¬(c = '}' ∧ depth = 0)) :
    depthBehind '{' '}' (depth + 1) c = depthBehind '{' '}' depth c + 1 := by
  by_cases opens : c = '{'
  · rw [depthBehind, depthBehind, if_pos opens, if_pos opens]
  · rw [depthBehind, depthBehind, if_neg opens, if_neg opens]
    by_cases closes : c = '}'
    · have positive : depth ≠ 0 := fun none => within ⟨closes, none⟩
      rw [if_pos closes, if_pos closes]
      omega
    · rw [if_neg closes, if_neg closes]

/-- A text leaves a group open if the depth does not come down to zero in it. -/
theorem closeGroup_eq_error_iff_depth :
    closeGroup '{' '}' depth text = .error left ↔
      (∀ front, front <+: text → front.foldl (depthBehind '{' '}') (depth + 1) ≠ 0) ∧
        text.foldl (depthBehind '{' '}') (depth + 1) = left + 1 := by
  induction text generalizing depth with
  | nil => simp [eq_comm]
  | cons c text ih =>
      rw [closeGroup_cons_eq_error_iff, ih]
      constructor
      · rintro ⟨within, opened, whole⟩
        rw [foldl_depthBehind_cons, depthBehind_succ within]
        refine ⟨?_, whole⟩
        intro front start
        rcases List.prefix_cons_iff.mp start with rfl | ⟨front, rfl, shorter⟩
        · exact Nat.succ_ne_zero depth
        · rw [foldl_depthBehind_cons, depthBehind_succ within]
          exact opened front shorter
      · rintro ⟨opened, whole⟩
        have within : ¬(c = '}' ∧ depth = 0) := by
          rintro ⟨rfl, rfl⟩
          exact opened ['}'] (List.prefix_append ['}'] text) rfl
        rw [foldl_depthBehind_cons, depthBehind_succ within] at whole
        refine ⟨within, ?_, whole⟩
        intro front start
        have stays := opened (c :: front) (List.cons_prefix_cons.mpr ⟨rfl, start⟩)
        rwa [foldl_depthBehind_cons, depthBehind_succ within] at stays

theorem exists_closeGroup_eq_error_iff :
    (∃ left, closeGroup '{' '}' depth text = .error left) ↔
      ∀ front, front <+: text → front.foldl (depthBehind '{' '}') (depth + 1) ≠ 0 := by
  constructor
  · rintro ⟨left, opened⟩
    exact (closeGroup_eq_error_iff_depth.mp opened).1
  · intro opened
    refine ⟨text.foldl (depthBehind '{' '}') (depth + 1) - 1,
      closeGroup_eq_error_iff_depth.mpr ⟨opened, ?_⟩⟩
    have positive := opened text List.prefix_rfl
    omega

/-- A group ends at a brace if the text in front of the brace leaves only this group open. -/
theorem closeGroup_eq_ok_iff :
    closeGroup '{' '}' depth text = .ok (inside, rest) ↔
      text = inside ++ '}' :: rest ∧ closeGroup '{' '}' depth inside = .error 0 := by
  constructor
  · intro closed
    refine ⟨eq_of_closeGroup closed, ?_⟩
    induction text generalizing depth inside with
    | nil => cases closed
    | cons c text ih =>
        rcases closeGroup_cons_eq_ok closed with
          ⟨rfl, rfl, rfl, rfl⟩ | ⟨behind, rfl, within, later⟩
        · rfl
        · exact closeGroup_cons_eq_error_iff.mpr ⟨within, ih later⟩
  · rintro ⟨rfl, opened⟩
    rw [closeGroup_append_of_error opened, closeGroup, if_pos ⟨rfl, rfl⟩]
    simp [Except.map]

/-- A group ends behind its contents if this is where the depth comes down to zero first. -/
theorem closeGroup_zero_eq_error_zero_iff :
    closeGroup '{' '}' 0 inside = .error 0 ↔
      (∀ front, front <+: '{' :: inside → front ≠ [] → braceDepth front ≠ 0) ∧
        braceDepth ('{' :: inside ++ ['}']) = 0 := by
  rw [closeGroup_eq_error_iff_depth]
  have lastDepth : braceDepth ('{' :: inside ++ ['}']) =
      inside.foldl (depthBehind '{' '}') (0 + 1) - 1 := by
    rw [List.cons_append, braceDepth_cons, List.foldl_append]
    rfl
  rw [lastDepth]
  constructor
  · rintro ⟨opened, whole⟩
    refine ⟨?_, by omega⟩
    intro front start inhabited
    rcases List.prefix_cons_iff.mp start with rfl | ⟨front, rfl, shorter⟩
    · exact absurd rfl inhabited
    · exact opened front shorter
  · rintro ⟨opened, whole⟩
    have stays : ∀ front, front <+: inside → front.foldl (depthBehind '{' '}') (0 + 1) ≠ 0 :=
      fun front start => opened ('{' :: front) (List.cons_prefix_cons.mpr ⟨rfl, start⟩)
        (List.cons_ne_nil _ _)
    have positive := stays inside List.prefix_rfl
    exact ⟨stays, by omega⟩

end Depth

section Lines

variable {depth consumed : Nat} {line inside after : List Char}
  {more unused lines : List (List Char)}

/-- A line that leaves a group open and the lines below it are read as one text. -/
theorem closeGroup_below {left : Nat} (opened : closeGroup '{' '}' depth line = .error left)
    (rest : List Char) :
    closeGroup '{' '}' depth (line ++ '\n' :: rest) =
      (closeGroup '{' '}' left rest).map fun (inside, after) =>
        (line ++ '\n' :: inside, after) := by
  have feed : closeGroup '{' '}' left ('\n' :: rest) =
      (closeGroup '{' '}' left rest).map fun (inside, after) => ('\n' :: inside, after) := by
    rw [closeGroup_cons, if_neg (by simp)]
    rfl
  rw [closeGroup_append_of_error opened, feed]
  cases closeGroup '{' '}' left rest with
  | ok found => rfl
  | error other => rfl

/-- No group is read from the lines if their join leaves it open. -/
theorem closeBraces_eq_none_iff :
    closeBraces depth line more = none ↔
      ∃ left, closeGroup '{' '}' depth (joinLines (line :: more)) = .error left := by
  induction more generalizing depth line with
  | nil =>
      rw [closeBraces, Text.joinLines_singleton]
      cases closeGroup '{' '}' depth line <;> simp
  | cons next more ih =>
      rw [Text.joinLines_cons (List.cons_ne_nil next more)]
      cases read : closeGroup '{' '}' depth line with
      | ok found =>
          rw [closeBraces_of_closed read, closeGroup_append_of_ok read]
          simp
      | error left =>
          rw [closeBraces_of_open_cons read, closeGroup_below read, Option.map_eq_none_iff, ih]
          cases closeGroup '{' '}' left (joinLines (next :: more)) <;> simp [Except.map]

/-- Where a line feed is on one side of a brace in two ways to cut a text. -/
theorem exists_of_append_lineFeed {line below inside after : List Char}
    (whole : line ++ '\n' :: below = inside ++ '}' :: after) (single : '\n' ∉ after) :
    ∃ behind, inside = line ++ '\n' :: behind ∧ below = behind ++ '}' :: after := by
  rcases List.append_eq_append_iff.mp whole with ⟨middle, rfl, back⟩ | ⟨middle, rfl, back⟩
  · cases middle with
    | nil => simp at back
    | cons c behind =>
        rw [List.cons_append, List.cons.injEq] at back
        exact ⟨behind, by rw [← back.1], back.2⟩
  · cases middle with
    | nil => simp at back
    | cons c behind =>
        rw [List.cons_append, List.cons.injEq] at back
        exact absurd (by simp [back.2]) single

theorem closeGroup_ok_of_single (single : '\n' ∉ line)
    (closed : closeGroup '{' '}' depth line = .ok (inside, after)) :
    line = inside ++ '}' :: after ∧ closeGroup '{' '}' depth inside = .error 0 ∧ '\n' ∉ after := by
  obtain ⟨whole, opened⟩ := closeGroup_eq_ok_iff.mp closed
  exact ⟨whole, opened, fun feed => single (by simp [whole, feed])⟩

/-- The join of a line and of those that are taken behind it. -/
theorem joinLines_take_succ (line next : List Char) (more : List (List Char)) (consumed : Nat) :
    joinLines ((line :: next :: more).take (consumed + 1 + 1)) =
      line ++ '\n' :: joinLines ((next :: more).take (consumed + 1)) := by
  rw [List.take_succ_cons, Text.joinLines_cons (by simp)]

/-- The lines that a group takes are cut at the brace that closes it. -/
theorem exists_cut_of_closeBraces (single : ∀ piece ∈ line :: more, '\n' ∉ piece)
    (closed : closeBraces depth line more = some (inside, after, unused)) :
    ∃ consumed ≤ more.length, unused = more.drop consumed ∧
      joinLines ((line :: more).take (consumed + 1)) = inside ++ '}' :: after ∧
      closeGroup '{' '}' depth inside = .error 0 ∧ '\n' ∉ after := by
  induction more generalizing depth line inside with
  | nil =>
      cases read : closeGroup '{' '}' depth line with
      | error left =>
          rw [closeBraces_of_open_nil read] at closed
          cases closed
      | ok found =>
          rw [closeBraces_of_closed read] at closed
          cases closed
          exact ⟨0, Nat.le_refl 0, rfl, closeGroup_ok_of_single (single _ List.mem_cons_self) read⟩
  | cons next more ih =>
      cases read : closeGroup '{' '}' depth line with
      | ok found =>
          rw [closeBraces_of_closed read] at closed
          cases closed
          exact ⟨0, Nat.zero_le _, rfl, closeGroup_ok_of_single (single _ List.mem_cons_self) read⟩
      | error left =>
          rw [closeBraces_of_open_cons read, Option.map_eq_some_iff] at closed
          obtain ⟨⟨behind, rest, remaining⟩, later, same⟩ := closed
          cases same
          have below : ∀ piece ∈ next :: more, '\n' ∉ piece :=
            fun piece member => single piece (List.mem_cons_of_mem line member)
          obtain ⟨consumed, small, rest, taken, opened, noFeed⟩ := ih below later
          refine ⟨consumed + 1, Nat.succ_le_succ small, rest, ?_, ?_, noFeed⟩
          · rw [joinLines_take_succ, taken, List.append_assoc, List.cons_append]
          · rw [closeGroup_below read, opened]
            rfl

/-- Lines that can be cut at a brace that closes the group are cut there. -/
theorem closeBraces_of_cut (small : consumed ≤ more.length)
    (taken : joinLines ((line :: more).take (consumed + 1)) = inside ++ '}' :: after)
    (opened : closeGroup '{' '}' depth inside = .error 0) (single : '\n' ∉ after) :
    closeBraces depth line more = some (inside, after, more.drop consumed) := by
  induction consumed generalizing depth line more inside with
  | zero =>
      have whole : line = inside ++ '}' :: after := taken
      exact closeBraces_of_closed (closeGroup_eq_ok_iff.mpr ⟨whole, opened⟩) more
  | succ consumed ih =>
      cases more with
      | nil => exact absurd small (Nat.not_succ_le_zero consumed)
      | cons next more =>
          rw [joinLines_take_succ] at taken
          obtain ⟨behind, rfl, below⟩ := exists_of_append_lineFeed taken single
          cases read : closeGroup '{' '}' depth line with
          | ok found =>
              rw [closeGroup_append_of_ok read] at opened
              cases opened
          | error left =>
              rw [closeGroup_below read] at opened
              have inner : closeGroup '{' '}' left behind = .error 0 := by
                cases shape : closeGroup '{' '}' left behind with
                | ok found => rw [shape] at opened; cases opened
                | error other => rw [shape] at opened; cases opened; rfl
              rw [closeBraces_of_open_cons read,
                ih (Nat.le_of_succ_le_succ small) below inner]
              rfl

end Lines

section Group

variable {line inner after : List Char} {more : List (List Char)} {consumed : Nat}

theorem joinLines_opened (line : List Char) (more : List (List Char)) :
    joinLines (('{' :: line) :: more) = '{' :: joinLines (line :: more) := by
  cases more <;> rfl

theorem closesAt_iff :
    ClosesAt (('{' :: line) :: more) inner after consumed ↔
      consumed ≤ more.length ∧
        joinLines ((line :: more).take (consumed + 1)) = inner ++ '}' :: after ∧
        closeGroup '{' '}' 0 inner = .error 0 ∧ '\n' ∉ after := by
  have opened : joinLines ((('{' :: line) :: more).take (consumed + 1)) =
      '{' :: joinLines ((line :: more).take (consumed + 1)) := by
    rw [List.take_succ_cons, List.take_succ_cons, joinLines_opened]
  rw [closeGroup_zero_eq_error_zero_iff]
  constructor
  · intro closes
    have taken := closes.taken
    rw [opened, List.cons_append, List.cons.injEq] at taken
    exact ⟨Nat.le_of_lt_succ closes.consumed_lt, taken.2,
      ⟨closes.stays_open, closes.closed⟩, closes.single⟩
  · rintro ⟨small, taken, ⟨stays, closed⟩, single⟩
    exact ⟨Nat.lt_succ_of_le small, by rw [opened, taken]; rfl, closed, stays, single⟩

/-- A group closes at one place only. -/
theorem ClosesAt.unique {other rest : List Char} {count : Nat}
    (closes : ClosesAt (('{' :: line) :: more) inner after consumed)
    (again : ClosesAt (('{' :: line) :: more) other rest count) :
    other = inner ∧ rest = after ∧ count = consumed := by
  obtain ⟨small, taken, opened, single⟩ := closesAt_iff.mp closes
  obtain ⟨otherSmall, otherTaken, otherOpened, otherSingle⟩ := closesAt_iff.mp again
  have read := closeBraces_of_cut small taken opened single
  rw [closeBraces_of_cut otherSmall otherTaken otherOpened otherSingle] at read
  simp only [Option.some.injEq, Prod.mk.injEq] at read
  obtain ⟨sameInner, sameAfter, sameRest⟩ := read
  have lengths := congrArg List.length sameRest
  rw [List.length_drop, List.length_drop] at lengths
  exact ⟨sameInner, sameAfter, by omega⟩

theorem typeGroup?_of_closesAt (closes : ClosesAt (('{' :: line) :: more) inner after consumed) :
    typeGroup? line more = some (String.ofList (trim inner), after, consumed) := by
  obtain ⟨small, taken, opened, single⟩ := closesAt_iff.mp closes
  have count : more.length - (more.drop consumed).length = consumed := by
    rw [List.length_drop]
    omega
  rw [typeGroup?, closeBraces_of_cut small taken opened single, Option.map_some]
  dsimp only
  rw [count]

theorem typeGroup?_eq_none_iff :
    typeGroup? line more = none ↔
      ∀ front, front <+: joinLines (('{' :: line) :: more) → front ≠ [] →
        braceDepth front ≠ 0 := by
  rw [typeGroup?, Option.map_eq_none_iff, closeBraces_eq_none_iff, exists_closeGroup_eq_error_iff,
    joinLines_opened]
  constructor
  · intro opened front start inhabited
    rcases List.prefix_cons_iff.mp start with rfl | ⟨front, rfl, shorter⟩
    · exact absurd rfl inhabited
    · exact opened front shorter
  · intro opened front start
    exact opened ('{' :: front) (List.cons_prefix_cons.mpr ⟨rfl, start⟩) (List.cons_ne_nil _ _)

theorem suffix_of_closeBraces {depth : Nat} {inside : List Char} {unused : List (List Char)}
    (closed : closeBraces depth line more = some (inside, after, unused)) : unused <:+ more := by
  induction more generalizing depth line inside with
  | nil =>
      cases read : closeGroup '{' '}' depth line with
      | ok found =>
          rw [closeBraces_of_closed read] at closed
          cases closed
          exact List.suffix_rfl
      | error left =>
          rw [closeBraces_of_open_nil read] at closed
          cases closed
  | cons next more ih =>
      cases read : closeGroup '{' '}' depth line with
      | ok found =>
          rw [closeBraces_of_closed read] at closed
          cases closed
          exact List.suffix_rfl
      | error left =>
          rw [closeBraces_of_open_cons read, Option.map_eq_some_iff] at closed
          obtain ⟨found, later, same⟩ := closed
          cases same
          exact (ih later).trans (List.suffix_cons next more)

/-- A tag is read with the type of its group, and with the text and the lines behind it. -/
theorem readTag_eq_typeGroup? {text : List Char}
    (grouped : trimStart (text.dropWhile fun c => !(Text.isBlank c || c = '{')) = '{' :: line)
    (number : Nat) (more : List (List Char)) :
    let tag : Tag :=
      { title := String.ofList (text.takeWhile fun c => !(Text.isBlank c || c = '{')) }
    readTag number text more =
      match typeGroup? line more with
      | none => (tag, [⟨.unpairedBrace, tag.title, number⟩])
      | some (typeText, after, consumed) =>
        readName { tag with typeText } number (trimStart after) (more.drop consumed) := by
  intro tag
  rw [readTag, List.span_eq_takeWhile_dropWhile]
  cases closed : closeBraces 0 line more with
  | none => simp only [grouped, typeGroup?, closed, Option.map_none, tag]
  | some found =>
      have unused := List.suffix_iff_eq_drop.mp (suffix_of_closeBraces closed)
      simp only [grouped, typeGroup?, closed, Option.map_some, ← unused, tag]

end Group

/-- A group is read unless the depth of the lines never comes back to zero.  The lines up to a
single place, which is the first of depth zero, are then the group and what follows it on its
last line, and the type is the trimmed text of the group. -/
theorem typeGroup?_cuts_at_depth_zero {line : List Char} {more : List (List Char)}
    (single : ∀ piece ∈ ('{' :: line) :: more, '\n' ∉ piece) :
    (typeGroup? line more = none ↔
        ∀ front, front <+: joinLines (('{' :: line) :: more) → front ≠ [] →
          braceDepth front ≠ 0) ∧
      (typeGroup? line more ≠ none →
        ∃ inner after consumed, ClosesAt (('{' :: line) :: more) inner after consumed ∧
          typeGroup? line more = some (String.ofList (trim inner), after, consumed) ∧
          ∀ other rest count, ClosesAt (('{' :: line) :: more) other rest count →
            other = inner ∧ rest = after ∧ count = consumed) := by
  refine ⟨typeGroup?_eq_none_iff, ?_⟩
  intro read
  have below : ∀ piece ∈ line :: more, '\n' ∉ piece := by
    rw [List.forall_mem_cons] at single ⊢
    exact ⟨fun feed => single.1 (List.mem_cons_of_mem _ feed), single.2⟩
  rw [ne_eq, typeGroup?, Option.map_eq_none_iff, Option.eq_none_iff_forall_ne_some,
    not_forall_not] at read
  obtain ⟨⟨inner, after, unused⟩, closed⟩ := read
  obtain ⟨consumed, small, -, cut⟩ := exists_cut_of_closeBraces below closed
  have closes : ClosesAt (('{' :: line) :: more) inner after consumed :=
    closesAt_iff.mpr ⟨small, cut⟩
  exact ⟨inner, after, consumed, closes, typeGroup?_of_closesAt closes,
    fun _ _ _ again => closes.unique again⟩

/-- Lines below one that ends with the brace of a group: the group is closed on the second. -/
def spreadLines : List (List Char) :=
  ["  a: \x7bb: c\x7d,".toList, "\x7d name, \x7d".toList, "  more \x7d".toList]

/-- The group takes two lines, and the second is cut at its first brace. -/
theorem typeGroup?_spreadLines :
    (∀ piece ∈ ['{'] :: spreadLines, '\n' ∉ piece) ∧
      typeGroup? [] spreadLines = some ("a: \x7bb: c\x7d,", " name, \x7d".toList, 2) ∧
      ∃ inner, ClosesAt (['{'] :: spreadLines) inner " name, \x7d".toList 2 := by
  have single : ∀ piece ∈ ['{'] :: spreadLines, '\n' ∉ piece := by decide
  have read : typeGroup? [] spreadLines =
      some ("a: \x7bb: c\x7d,", " name, \x7d".toList, 2) := by decide
  refine ⟨single, read, ?_⟩
  obtain ⟨inner, after, consumed, closes, same, -⟩ :=
    (typeGroup?_cuts_at_depth_zero single).2 (by simp [read])
  rw [read, Option.some.injEq, Prod.mk.injEq, Prod.mk.injEq] at same
  obtain ⟨-, rfl, rfl⟩ := same
  exact ⟨inner, closes⟩

end ApiAssembly.Comment
