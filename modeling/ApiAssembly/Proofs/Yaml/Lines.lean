import ApiAssembly.Yaml.Write

/-!
# Lines of written text

Breaks in a text are followed by the indentation of the next line, and a text that is written
for itself ends with a break.
-/

namespace ApiAssembly.Yaml

variable {text front back rest : List Char} {indent : Nat}

theorem indentLines_of_line (line : ∀ c ∈ text, isBreak c = false) :
    indentLines indent false (text ++ rest) = text ++ indentLines indent false rest := by
  induction text with
  | nil => rfl
  | cons c text ih =>
      rw [List.cons_append, indentLines, line c List.mem_cons_self,
        ih fun d member => line d (List.mem_cons_of_mem c member)]
      rfl

theorem indentLines_of_breaks {behindBreak : Bool} (inhabited : text ≠ [])
    (breaks : ∀ c ∈ text, isBreak c = true) :
    indentLines indent behindBreak (text ++ rest) = text ++ indentLines indent true rest := by
  induction text generalizing behindBreak with
  | nil => exact absurd rfl inhabited
  | cons c text ih =>
      rw [List.cons_append, indentLines, if_pos (breaks c List.mem_cons_self)]
      cases text with
      | nil => rfl
      | cons d text =>
          rw [ih (by simp) fun e member => breaks e (List.mem_cons_of_mem c member)]
          rfl

/-- A line behind a break begins with the indentation. -/
theorem indentLines_behindBreak {c : Char} (line : isBreak c = false) :
    indentLines indent true (c :: rest) =
      spaces indent ++ indentLines indent false (c :: rest) := by
  simp [indentLines, line]

theorem closeLine_append (inhabited : back ≠ []) :
    closeLine (front ++ back) = front ++ closeLine back := by
  rw [closeLine, closeLine, List.getLast?_append, List.getLast?_eq_some_getLast inhabited,
    Option.some_or]
  split
  · rfl
  · rw [List.append_assoc]

theorem closeLine_of_noBreak (line : ∀ c ∈ text, isBreak c = false) :
    closeLine text = text ++ ['\n'] := by
  have noBreak : text.getLast?.any isBreak = false := by
    cases last : text.getLast? with
    | none => rfl
    | some c => exact line c (List.mem_of_getLast? last)
  rw [closeLine, noBreak, if_neg Bool.false_ne_true]

theorem closeLine_of_breaks (inhabited : text ≠ []) (breaks : ∀ c ∈ text, isBreak c = true) :
    closeLine text = text := by
  have last := List.getLast?_eq_some_getLast inhabited
  rw [closeLine, last, Option.any_some, if_pos (breaks _ (List.getLast_mem inhabited))]

/-- A text that is written for itself ends with a break. -/
theorem exists_closeLine (text : List Char) :
    ∃ line last, closeLine text = line ++ [last] ∧ isBreak last = true := by
  rw [closeLine]
  split
  next ends =>
    cases found : text.getLast? with
    | none =>
        rw [found] at ends
        cases ends
    | some last =>
        rw [found] at ends
        obtain ⟨line, rfl⟩ := List.getLast?_eq_some_iff.mp found
        exact ⟨line, last, rfl, ends⟩
  next => exact ⟨text, '\n', rfl, rfl⟩

@[simp]
theorem closeLine_closeLine (text : List Char) : closeLine (closeLine text) = closeLine text := by
  obtain ⟨line, last, shape, ends⟩ := exists_closeLine text
  rw [shape, closeLine_append (by simp), closeLine_of_breaks (by simp) (by simpa using ends)]

end ApiAssembly.Yaml
