import ApiAssembly.Comment.Tag
import Mathlib.Data.List.Infix

/-!
# Groups in brackets

A group ends at the mark that closes it.  In a balanced text every mark that closes has its
partner before it, so a group with such contents ends directly behind them.  A text that is
not balanced either closes the group within itself or leaves inner groups open.
-/

namespace ApiAssembly.Comment

/-- No beginning of the text closes more groups than it opens, and the text closes all that
it opens. -/
def Balanced (opening closing : Char) (text : List Char) : Prop :=
  (∀ front ∈ text.inits, front.count closing ≤ front.count opening) ∧
    text.count closing = text.count opening

instance (opening closing : Char) (text : List Char) :
    Decidable (Balanced opening closing text) :=
  inferInstanceAs (Decidable (_ ∧ _))

/-- The number of open groups behind a character that does not end the outermost one. -/
def depthBehind (opening closing : Char) (depth : Nat) (c : Char) : Nat :=
  if c = opening then depth + 1 else if c = closing then depth - 1 else depth

variable {opening closing c : Char} {depth left : Nat} {text inside rest : List Char}

section Reading

/-- A character that does not end the group is the first of its contents. -/
theorem closeGroup_cons :
    closeGroup opening closing depth (c :: text) =
      if c = closing ∧ depth = 0 then .ok ([], text)
      else (closeGroup opening closing (depthBehind opening closing depth c) text).map
        fun (inside, after) => (c :: inside, after) := by
  rw [closeGroup, depthBehind]
  split
  · rfl
  · dsimp only
    cases closeGroup opening closing _ text with
    | ok found => rfl
    | error left => rfl

theorem closeGroup_cons_eq_error_iff :
    closeGroup opening closing depth (c :: text) = .error left ↔
      ¬(c = closing ∧ depth = 0) ∧
        closeGroup opening closing (depthBehind opening closing depth c) text = .error left := by
  rw [closeGroup_cons]
  split
  next ends => simp [ends]
  next within =>
    cases closeGroup opening closing (depthBehind opening closing depth c) text with
    | ok found => simp [Except.map]
    | error other => simp [Except.map, within]

theorem closeGroup_cons_eq_ok (closed :
    closeGroup opening closing depth (c :: text) = .ok (inside, rest)) :
    (c = closing ∧ depth = 0 ∧ inside = [] ∧ rest = text) ∨
      ∃ behind, inside = c :: behind ∧ ¬(c = closing ∧ depth = 0) ∧
        closeGroup opening closing (depthBehind opening closing depth c) text =
          .ok (behind, rest) := by
  rw [closeGroup_cons] at closed
  split at closed
  next ends =>
    cases closed
    exact .inl ⟨ends.1, ends.2, rfl, rfl⟩
  next within =>
    cases read : closeGroup opening closing (depthBehind opening closing depth c) text with
    | error other => rw [read] at closed; cases closed
    | ok found =>
        rw [read] at closed
        cases closed
        exact .inr ⟨found.1, rfl, within, rfl⟩

/-- The contents of a group and what follows it are the text without the mark between them. -/
theorem eq_of_closeGroup (closed : closeGroup opening closing depth text = .ok (inside, rest)) :
    text = inside ++ closing :: rest := by
  induction text generalizing depth inside with
  | nil => cases closed
  | cons c text ih =>
      rcases closeGroup_cons_eq_ok closed with ⟨rfl, -, rfl, rfl⟩ | ⟨behind, rfl, -, later⟩
      · rfl
      · rw [ih later]
        rfl

/-- A group that is closed ends where it ends, whatever stands behind the text. -/
theorem closeGroup_append_of_ok
    (closed : closeGroup opening closing depth text = .ok (inside, rest)) (more : List Char) :
    closeGroup opening closing depth (text ++ more) = .ok (inside, rest ++ more) := by
  induction text generalizing depth inside with
  | nil => cases closed
  | cons c text ih =>
      rw [List.cons_append, closeGroup_cons]
      rcases closeGroup_cons_eq_ok closed with
        ⟨ends, outer, rfl, rfl⟩ | ⟨behind, rfl, within, later⟩
      · rw [if_pos ⟨ends, outer⟩]
      · rw [if_neg within, ih later]
        rfl

/-- Behind a text that leaves the group open, reading goes on with the groups that are open
there. -/
theorem closeGroup_append_of_error
    (through : closeGroup opening closing depth text = .error left) (rest : List Char) :
    closeGroup opening closing depth (text ++ rest) =
      (closeGroup opening closing left rest).map
        fun (inside, after) => (text ++ inside, after) := by
  induction text generalizing depth with
  | nil =>
      cases through
      rw [List.nil_append]
      cases closeGroup opening closing left rest with
      | ok found => rfl
      | error other => rfl
  | cons c text ih =>
      obtain ⟨within, later⟩ := closeGroup_cons_eq_error_iff.mp through
      rw [List.cons_append, closeGroup_cons, if_neg within, ih later]
      cases closeGroup opening closing left rest with
      | ok found => rfl
      | error other => rfl

end Reading

section Counting

/-- What a character adds to the counts of a text, it takes from the open groups. -/
theorem count_add_depthBehind (distinct : opening ≠ closing)
    (within : ¬(c = closing ∧ depth = 0)) (text : List Char) :
    text.count closing + ((c :: text).count opening + depth) =
      (c :: text).count closing +
        (text.count opening + depthBehind opening closing depth c) := by
  by_cases opens : c = opening
  · rw [depthBehind, if_pos opens, opens, List.count_cons_self, List.count_cons_of_ne distinct]
    omega
  · rw [depthBehind, if_neg opens, List.count_cons_of_ne opens]
    by_cases closes : c = closing
    · have positive : depth ≠ 0 := fun none => within ⟨closes, none⟩
      rw [if_pos closes, closes, List.count_cons_self]
      omega
    · rw [if_neg closes, List.count_cons_of_ne closes]

/-- A text leaves the group open if none of its beginnings closes all that is open, and then
the counts tell how many groups are open behind it. -/
theorem closeGroup_eq_error_iff (distinct : opening ≠ closing) :
    closeGroup opening closing depth text = .error left ↔
      (∀ front, front <+: text → front.count closing ≤ front.count opening + depth) ∧
        text.count closing + left = text.count opening + depth := by
  induction text generalizing depth with
  | nil => simp [eq_comm]
  | cons c text ih =>
      rw [closeGroup_cons_eq_error_iff, ih]
      constructor
      · rintro ⟨within, counts, whole⟩
        have moved := count_add_depthBehind distinct within
        refine ⟨?_, by have := moved text; omega⟩
        intro front start
        rcases List.prefix_cons_iff.mp start with rfl | ⟨front, rfl, shorter⟩
        · simp
        · have := counts front shorter
          have := moved front
          omega
      · rintro ⟨counts, whole⟩
        have within : ¬(c = closing ∧ depth = 0) := by
          rintro ⟨rfl, rfl⟩
          have first := counts [c] (List.prefix_append [c] text)
          simp [Ne.symm distinct] at first
        have moved := count_add_depthBehind distinct within
        refine ⟨within, ?_, by have := moved text; omega⟩
        intro front start
        have := counts (c :: front) (List.cons_prefix_cons.mpr ⟨rfl, start⟩)
        have := moved front
        omega

end Counting

section Balance

theorem balanced_iff_closeGroup (distinct : opening ≠ closing) :
    Balanced opening closing text ↔ closeGroup opening closing 0 text = .error 0 := by
  simp only [Balanced, closeGroup_eq_error_iff distinct, List.mem_inits, Nat.add_zero]

/-- A balanced text leaves open what was open before it. -/
theorem Balanced.closeGroup_eq (distinct : opening ≠ closing)
    (balanced : Balanced opening closing text) (depth : Nat) :
    closeGroup opening closing depth text = .error depth := by
  rw [closeGroup_eq_error_iff distinct, balanced.2]
  refine ⟨?_, rfl⟩
  intro front start
  exact Nat.le_add_right_of_le (balanced.1 front ((List.mem_inits front text).mpr start))

/-- A group with balanced contents ends behind them. -/
theorem closeGroup_of_balanced (distinct : opening ≠ closing)
    (balanced : Balanced opening closing text) (rest : List Char) :
    closeGroup opening closing 0 (text ++ closing :: rest) = .ok (text, rest) := by
  rw [closeGroup_append_of_error (balanced.closeGroup_eq distinct 0), closeGroup,
    if_pos ⟨rfl, rfl⟩]
  simp [Except.map]

theorem balanced_of_not_mem (noOpening : opening ∉ text) (noClosing : closing ∉ text) :
    Balanced opening closing text := by
  have counts : ∀ front, front <+: text → front.count closing = 0 := by
    intro front start
    exact List.count_eq_zero.mpr fun member => noClosing (start.subset member)
  refine ⟨?_, ?_⟩
  · intro front member
    rw [counts front ((List.mem_inits front text).mp member)]
    exact Nat.zero_le _
  · rw [counts text List.prefix_rfl, List.count_eq_zero.mpr noOpening]

theorem Balanced.append (distinct : opening ≠ closing) {front back : List Char}
    (first : Balanced opening closing front) (second : Balanced opening closing back) :
    Balanced opening closing (front ++ back) := by
  rw [balanced_iff_closeGroup distinct,
    closeGroup_append_of_error (first.closeGroup_eq distinct 0), second.closeGroup_eq distinct 0]
  rfl

/-- A group with balanced contents is balanced. -/
theorem Balanced.group (distinct : opening ≠ closing)
    (balanced : Balanced opening closing text) :
    Balanced opening closing (opening :: (text ++ [closing])) := by
  have opened : ¬(opening = closing ∧ 0 = 0) := fun same => distinct same.1
  have behindOpening : depthBehind opening closing 0 opening = 1 := if_pos rfl
  have behindClosing : depthBehind opening closing 1 closing = 0 := by
    rw [depthBehind, if_neg (Ne.symm distinct), if_pos rfl]
  have closes : closeGroup opening closing 1 [closing] = .error 0 := by
    rw [closeGroup_cons_eq_error_iff, behindClosing]
    simp
  rw [balanced_iff_closeGroup distinct, closeGroup_cons_eq_error_iff, behindOpening,
    closeGroup_append_of_error (balanced.closeGroup_eq distinct 1), closes]
  exact ⟨opened, rfl⟩

end Balance

section Braces

variable {line : List Char}

theorem closeBraces_of_closed (closed : closeGroup '{' '}' depth line = .ok (inside, rest))
    (more : List (List Char)) : closeBraces depth line more = some (inside, rest, more) := by
  rw [closeBraces, closed]

theorem closeBraces_of_open_nil (opened : closeGroup '{' '}' depth line = .error left) :
    closeBraces depth line [] = none := by
  rw [closeBraces, opened]

theorem closeBraces_of_open_cons (opened : closeGroup '{' '}' depth line = .error left)
    (next : List Char) (more : List (List Char)) :
    closeBraces depth line (next :: more) =
      (closeBraces left next more).map fun (inside, after, unused) =>
        (line ++ '\n' :: inside, after, unused) := by
  rw [closeBraces, opened]

theorem closeBraces_of_balanced (balanced : Balanced '{' '}' text)
    (rest : List Char) (more : List (List Char)) :
    closeBraces 0 (text ++ '}' :: rest) more = some (text, rest, more) :=
  closeBraces_of_closed (closeGroup_of_balanced (by decide) balanced rest) more

end Braces

end ApiAssembly.Comment
