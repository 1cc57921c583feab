import ApiAssembly.Text.Line
import Mathlib.Data.List.Basic
import Mathlib.Data.List.Induction
import Mathlib.Data.List.TakeWhile

/-!
# Lines and their ends

A text without blanks at an end is not changed by trimming there.  Lines that are written
below each other are read one after the other, and a text is the join of the pieces between
its line feeds.
-/

namespace ApiAssembly.Text

/-- The text does not begin with a blank. -/
def Unindented (text : List Char) : Prop :=
  ∀ c ∈ text.head?, isBlank c = false

/-- The text does not end with a blank. -/
def Unpadded (text : List Char) : Prop :=
  ∀ c ∈ text.getLast?, isBlank c = false

-- The instances are written out: the search may find one that goes through every character.
instance : DecidablePred Unindented :=
  fun text => Option.decidableForallMem text.head?

instance : DecidablePred Unpadded :=
  fun text => Option.decidableForallMem text.getLast?

section Trimming

variable {text : List Char}

theorem Unindented.trimStart_eq (unindented : Unindented text) : trimStart text = text := by
  cases text with
  | nil => rfl
  | cons c rest => exact trimStart_of_not_isBlank (unindented c rfl)

theorem Unpadded.trimEnd_eq (unpadded : Unpadded text) : trimEnd text = text := by
  cases text using List.reverseRecOn with
  | nil => rfl
  | append_singleton front c =>
      exact trimEnd_concat_of_not_isBlank (unpadded c List.getLast?_concat)

theorem trim_eq (unindented : Unindented text) (unpadded : Unpadded text) :
    trim text = text := by
  rw [trim, unindented.trimStart_eq, unpadded.trimEnd_eq]

/-- Trimming takes characters from the end of a text that begins with no blank. -/
theorem Unindented.exists_of_trim (unindented : Unindented text) (inhabited : text ≠ []) :
    trim text ≠ [] ∧ ∃ blanks, text = trim text ++ blanks := by
  rw [trim, unindented.trimStart_eq, trimEnd]
  have parts := congrArg List.reverse (@List.takeWhile_append_dropWhile _ isBlank text.reverse)
  rw [List.reverse_append, List.reverse_reverse] at parts
  refine ⟨fun all => ?_, _, parts.symm⟩
  obtain ⟨c, text, rfl⟩ := List.exists_cons_of_ne_nil inhabited
  have blank := List.dropWhile_eq_nil_iff.mp (List.reverse_eq_nil_iff.mp all) c (by simp)
  rw [unindented c rfl] at blank
  cases blank

@[simp]
theorem unpadded_nil : Unpadded [] := by
  intro c member
  cases member

theorem unindented_of_forall (solid : ∀ c ∈ text, isBlank c = false) : Unindented text :=
  fun c member => solid c (List.mem_of_mem_head? member)

theorem unpadded_of_forall (solid : ∀ c ∈ text, isBlank c = false) : Unpadded text :=
  fun c member => solid c (List.mem_of_mem_getLast? member)

theorem unpadded_concat {c : Char} (solid : isBlank c = false) (front : List Char) :
    Unpadded (front ++ [c]) := by
  intro last member
  rw [List.getLast?_concat] at member
  cases member
  exact solid

/-- The end of a text is the end of its last part. -/
theorem Unpadded.append {front back : List Char} (frontUnpadded : Unpadded front)
    (backUnpadded : Unpadded back) : Unpadded (front ++ back) := by
  cases back using List.reverseRecOn with
  | nil => rwa [List.append_nil]
  | append_singleton back c =>
      intro last member
      rw [← List.append_assoc, List.getLast?_concat] at member
      exact backUnpadded last (List.getLast?_concat.trans member)

end Trimming

section Joining

theorem joinLines_cons {line : List Char} {more : List (List Char)} (further : more ≠ []) :
    joinLines (line :: more) = line ++ '\n' :: joinLines more := by
  cases more with
  | nil => exact absurd rfl further
  | cons next more => rfl

theorem joinLines_eq_intercalate (lines : List (List Char)) :
    joinLines lines = ['\n'].intercalate lines := by
  induction lines with
  | nil => rfl
  | cons line more ih =>
      cases more with
      | nil => simp
      | cons next more => simp [joinLines_cons, ih]

/-- A text is the join of the pieces between its line feeds. -/
theorem joinLines_splitOn (text : List Char) : joinLines (text.splitOn '\n') = text := by
  rw [joinLines_eq_intercalate, List.intercalate_splitOn]

theorem not_mem_of_mem_splitOn {mark : Char} {text piece : List Char}
    (member : piece ∈ text.splitOn mark) : mark ∉ piece := by
  induction text generalizing piece with
  | nil =>
      rw [List.splitOn_nil, List.mem_singleton] at member
      simp [member]
  | cons c rest ih =>
      rw [List.splitOn_cons_eq_if_modifyHead] at member
      split at member
      · rcases List.mem_cons.mp member with rfl | later
        · simp
        · exact ih later
      · rename_i other
        cases pieces : rest.splitOn mark with
        | nil => exact absurd pieces (List.splitOn_ne_nil mark rest)
        | cons first others =>
            rw [pieces, List.modifyHead_cons, List.mem_cons] at member
            rw [pieces] at ih
            rcases member with rfl | later
            · have fresh : mark ∉ first := ih List.mem_cons_self
              have different : ¬mark = c := fun same => other (by simp [same])
              simp [fresh, different]
            · exact ih (List.mem_cons_of_mem first later)

/-- Joined lines end as the last line does, unless it is empty. -/
theorem getLast?_joinLines {line : List Char} (inhabited : line ≠ [])
    (front : List (List Char)) :
    (joinLines (front ++ [line])).getLast? = line.getLast? := by
  induction front with
  | nil => rfl
  | cons first front ih =>
      have further : front ++ [line] ≠ [] := by simp
      have last : (joinLines (front ++ [line])).getLast? = some (line.getLast inhabited) := by
        rw [ih, List.getLast?_eq_some_getLast]
      rw [List.cons_append, joinLines_cons further, List.getLast?_append, List.getLast?_cons,
        last, List.getLast?_eq_some_getLast inhabited]
      rfl

end Joining

/-- A line is read up to its line feed; a carriage return in front of it would be lost. -/
theorem lines_append_lineFeed {line : List Char} (single : '\n' ∉ line)
    (plain : line.getLast? ≠ some '\r') (rest : List Char) :
    lines (line ++ '\n' :: rest) = line :: lines rest := by
  induction line with
  | nil => rfl
  | cons c line ih =>
      rw [List.mem_cons, not_or] at single
      have notFeed : c ≠ '\n' := Ne.symm single.1
      cases line with
      | nil =>
          have notReturn : c ≠ '\r' := by simpa using plain
          simp [lines, notFeed, notReturn]
      | cons next line =>
          have notNext : next ≠ '\n' := fun same => single.2 (by simp [same])
          have later := ih single.2 (by simpa using plain)
          rw [List.cons_append, lines, if_neg notFeed, if_neg (by simp [notNext]), later]

end ApiAssembly.Text
