import ApiAssembly.Comment.Parse
import ApiAssembly.Proofs.Text.Search

/-!
# Finding comments

A comment ends at the first closing mark behind its opening mark, whatever stands behind.  So
a comment that was found in a text is found again where it stands alone.  It is no longer than
the text, and each of its tags takes one of its lines at least.
-/

namespace ApiAssembly

namespace Comment

theorem blockTexts_of_absent {text : List Char} (absent : Text.find? openingMark text = none) :
    blockTexts text = [] := by
  rw [blockTexts]
  split
  · rfl
  · rename_i found
    rw [absent] at found
    cases found

theorem blockTexts_of_open {text front body : List Char}
    (opened : Text.find? openingMark text = some (front, body))
    (absent : Text.find? closingMark body = none) : blockTexts text = [] := by
  rw [blockTexts]
  split
  · rfl
  · rename_i found
    rw [opened, Option.some.injEq, Prod.mk.injEq] at found
    obtain ⟨rfl, rfl⟩ := found
    split
    · rfl
    · rename_i found
      rw [absent] at found
      cases found

theorem blockTexts_of_closed {text front body inside rest : List Char}
    (opened : Text.find? openingMark text = some (front, body))
    (closed : Text.find? closingMark body = some (inside, rest)) :
    blockTexts text = (openingMark ++ inside ++ closingMark) :: blockTexts rest := by
  rw [blockTexts]
  split
  · rename_i absent
    rw [opened] at absent
    cases absent
  · rename_i found
    rw [opened, Option.some.injEq, Prod.mk.injEq] at found
    obtain ⟨rfl, rfl⟩ := found
    split
    · rename_i absent
      rw [closed] at absent
      cases absent
    · rename_i found
      rw [closed, Option.some.injEq, Prod.mk.injEq] at found
      obtain ⟨rfl, rfl⟩ := found
      rfl

/-- A text between the marks of a comment is a comment if it contains no closing mark. -/
theorem blockTexts_of_find? {body inside rest : List Char}
    (closed : Text.find? closingMark body = some (inside, rest)) (other : List Char) :
    blockTexts (openingMark ++ inside ++ closingMark ++ other) =
      (openingMark ++ inside ++ closingMark) :: blockTexts other := by
  have opened : Text.find? openingMark (openingMark ++ inside ++ closingMark ++ other) =
      some ([], inside ++ closingMark ++ other) := by
    simp only [List.append_assoc]
    exact Text.find?_append_self _ _
  exact blockTexts_of_closed opened (Text.find?_of_find? closed other)

@[simp]
theorem blockTexts_nil : blockTexts [] = [] :=
  blockTexts_of_absent rfl

/-- A comment that was found in a text is the one comment of its own text. -/
theorem blockTexts_of_mem {text block : List Char} (member : block ∈ blockTexts text) :
    blockTexts block = [block] := by
  fun_induction blockTexts text with
  | case1 => cases member
  | case2 => cases member
  | case3 text front body opened inside rest closed ih =>
      rcases List.mem_cons.mp member with rfl | later
      · have alone := blockTexts_of_find? closed []
        rwa [List.append_nil, blockTexts_nil] at alone
      · exact ih later

/-- The text between the marks is what is read of a comment. -/
theorem innerText_marked (inside : List Char) :
    innerText (['/', '*', '*'] ++ inside ++ ['*', '/']) = inside := by
  have closed : Text.before? closingMark (inside ++ closingMark) = some inside :=
    Text.before?_eq_some_iff.mpr rfl
  rw [innerText, openingMark, List.append_assoc, Text.after?_append_self]
  exact congrArg (Option.getD · _) closed

section Lengths

theorem length_lines_le (text : List Char) : (Text.lines text).length ≤ text.length := by
  fun_induction Text.lines text with
  | case1 => rfl
  | case2 rest ih => simpa using ih
  | case3 c rest _ _ ih => exact ih.trans (Nat.le_succ _)
  | case4 => simp
  | case5 c rest _ _ line more shape ih => simpa [shape] using ih.trans (Nat.le_succ _)

theorem length_innerText_le (text : List Char) : (innerText text).length ≤ text.length := by
  rw [innerText]
  split
  · rfl
  · rename_i body opened
    rw [Text.after?_eq_some_iff] at opened
    cases closed : Text.before? closingMark body with
    | none => rfl
    | some inside =>
        rw [Text.before?_eq_some_iff] at closed
        simp [opened, closed]
        omega

@[simp]
theorem length_numberLines (start : Nat) (lines : List (List Char)) :
    (numberLines start lines).length = lines.length := by
  induction lines generalizing start with
  | nil => rfl
  | cons line lines ih => simp [numberLines, ih]

/-- Every tag has a line of its own. -/
theorem length_groupLines_le (lines : List (Nat × List Char)) :
    (groupLines lines).2.length ≤ lines.length := by
  induction lines with
  | nil => rfl
  | cons line lines ih =>
      rw [groupLines.eq_def]
      dsimp only
      split
      · simpa using ih
      · exact ih.trans (Nat.le_succ _)

theorem length_le_of_mem_blockTexts {text block : List Char} (member : block ∈ blockTexts text) :
    block.length ≤ text.length := by
  fun_induction blockTexts text with
  | case1 => cases member
  | case2 => cases member
  | case3 text front body opened inside rest closed ih =>
      have whole := congrArg List.length (Text.eq_of_find? opened)
      have cut := congrArg List.length (Text.eq_of_find? closed)
      simp only [List.length_append] at whole cut
      rcases List.mem_cons.mp member with rfl | later
      · simp only [List.length_append]
        omega
      · have inRest := ih later
        omega

/-- The comments of a text have no more tags than the text has characters. -/
theorem length_tags_le {text : List Char} {block : Block} (member : block ∈ parse text) :
    block.tags.length ≤ text.length := by
  obtain ⟨own, inside, rfl⟩ := List.mem_map.mp member
  calc (parseBlock own).tags.length
      ≤ (Text.lines (innerText own)).length := by
        have groups := length_groupLines_le
          (numberLines 0 ((Text.lines (innerText own)).map stripDelimiter))
        simpa [parseBlock] using groups
    _ ≤ (innerText own).length := length_lines_le _
    _ ≤ own.length := length_innerText_le own
    _ ≤ text.length := length_le_of_mem_blockTexts inside

end Lengths

end Comment

end ApiAssembly
