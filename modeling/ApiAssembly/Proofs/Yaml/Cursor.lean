import ApiAssembly.Yaml.Cursor

/-!
# Moving over written text

A cursor moves over a text character by character; a break takes it to the next line.  The
steps of the reader over characters of one line and over a break are such moves.
-/

namespace ApiAssembly.Yaml

/-- A break that may stand in a written text; it is kept as it is. -/
def isPlainBreak (c : Char) : Bool :=
  c = '\n' || c = '\u2028' || c = '\u2029'

namespace Cursor

/-- The cursor behind one character. -/
def step (cursor : Cursor) (c : Char) : Cursor :=
  if isBreak c then ⟨cursor.rest.tail, cursor.index + 1, cursor.line + 1, 0⟩
  else ⟨cursor.rest.tail, cursor.index + 1, cursor.line, cursor.column + 1⟩

/-- The cursor behind a text. -/
def past (cursor : Cursor) (text : List Char) : Cursor :=
  text.foldl step cursor

variable {cursor : Cursor} {text rest : List Char} {c : Char}

@[simp]
theorem past_nil (cursor : Cursor) : cursor.past [] = cursor := rfl

@[simp]
theorem past_cons (cursor : Cursor) (c : Char) (text : List Char) :
    cursor.past (c :: text) = (cursor.step c).past text := rfl

theorem past_append (cursor : Cursor) (front back : List Char) :
    cursor.past (front ++ back) = (cursor.past front).past back :=
  List.foldl_append

@[simp]
theorem step_index (cursor : Cursor) (c : Char) : (cursor.step c).index = cursor.index + 1 := by
  rw [step]
  split <;> rfl

@[simp]
theorem step_rest (cursor : Cursor) (c : Char) : (cursor.step c).rest = cursor.rest.tail := by
  rw [step]
  split <;> rfl

theorem step_of_not_isBreak (line : isBreak c = false) :
    cursor.step c = ⟨cursor.rest.tail, cursor.index + 1, cursor.line, cursor.column + 1⟩ := by
  rw [step, line]
  rfl

theorem step_of_isBreak (ends : isBreak c = true) :
    cursor.step c = ⟨cursor.rest.tail, cursor.index + 1, cursor.line + 1, 0⟩ :=
  if_pos ends

@[simp]
theorem past_index (cursor : Cursor) (text : List Char) :
    (cursor.past text).index = cursor.index + text.length := by
  induction text generalizing cursor with
  | nil => rfl
  | cons c text ih =>
      rw [past_cons, ih, step_index, List.length_cons]
      omega

theorem past_rest (here : cursor.rest = text ++ rest) : (cursor.past text).rest = rest := by
  induction text generalizing cursor with
  | nil => exact here
  | cons c text ih => exact ih (by rw [step_rest, here]; rfl)

/-- Characters of one line. -/
theorem past_eq_advance (line : ∀ c ∈ text, isBreak c = false) :
    cursor.past text = cursor.advance text.length := by
  induction text generalizing cursor with
  | nil => rfl
  | cons c text ih =>
      rw [past_cons, ih fun d member => line d (List.mem_cons_of_mem c member),
        step_of_not_isBreak (line c List.mem_cons_self)]
      simp only [advance, List.length_cons, List.drop_tail, Cursor.mk.injEq, true_and]
      omega

theorem advance_length (cursor : Cursor) (line : ∀ c ∈ text, isBreak c = false) :
    cursor.advance text.length = cursor.past text :=
  (past_eq_advance line).symm

theorem advance_one (line : isBreak c = false) : cursor.advance 1 = cursor.step c :=
  @advance_length [c] cursor (List.forall_mem_singleton.mpr line)

theorem past_column (line : ∀ c ∈ text, isBreak c = false) :
    (cursor.past text).column = cursor.column + text.length := by
  rw [past_eq_advance line]
  rfl

theorem past_line (line : ∀ c ∈ text, isBreak c = false) :
    (cursor.past text).line = cursor.line := by
  rw [past_eq_advance line]
  rfl

theorem line_le_past (cursor : Cursor) (text : List Char) :
    cursor.line ≤ (cursor.past text).line := by
  induction text generalizing cursor with
  | nil => exact Nat.le_refl _
  | cons c text ih =>
      refine Nat.le_trans ?_ (ih (cursor.step c))
      rw [step]
      split
      · exact Nat.le_succ _
      · exact Nat.le_refl _

/-- Behind a break the cursor is on a later line. -/
theorem line_lt_past (member : c ∈ text) (ends : isBreak c = true) :
    cursor.line < (cursor.past text).line := by
  induction text generalizing cursor with
  | nil => cases member
  | cons first text ih =>
      rcases List.mem_cons.mp member with rfl | later
      · have next := line_le_past (cursor.step c) text
        rw [step_of_isBreak ends] at next
        rw [past_cons, step_of_isBreak ends]
        exact next
      · have here := line_le_past cursor [first]
        exact Nat.lt_of_le_of_lt here (ih later)

theorem isBreak_of_isPlainBreak (ends : isPlainBreak c = true) : isBreak c = true := by
  simp only [isPlainBreak, Bool.or_eq_true, decide_eq_true_eq] at ends
  rcases ends with (rfl | rfl) | rfl <;> rfl

/-- A break is taken as it stands. -/
theorem takeBreak_eq (ends : isPlainBreak c = true) (here : cursor.rest = c :: rest) :
    cursor.takeBreak = ([c], cursor.step c) := by
  rw [step_of_isBreak (isBreak_of_isPlainBreak ends), takeBreak, here]
  simp only [isPlainBreak, Bool.or_eq_true, decide_eq_true_eq] at ends
  rcases ends with (rfl | rfl) | rfl <;> rfl

/-- Behind breaks the column is that in the new line. -/
theorem column_behind_breaks {breaks : List Char} (inhabited : breaks ≠ [])
    (all : ∀ c ∈ breaks, isBreak c = true) (line : ∀ c ∈ text, isBreak c = false) :
    (cursor.past (breaks ++ text)).column = text.length := by
  have start : (cursor.past breaks).column = 0 := by
    rw [← List.dropLast_concat_getLast inhabited, past_append, past_cons, past_nil,
      step_of_isBreak (all _ (List.getLast_mem inhabited))]
  rw [past_append, past_column line, start, Nat.zero_add]

end Cursor

end ApiAssembly.Yaml
