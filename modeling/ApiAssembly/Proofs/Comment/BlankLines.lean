import ApiAssembly.Proofs.Comment.RoundTrip

/-!
# Empty lines at the end of a comment

Empty lines behind the last one say nothing.  They go to the last tag, or to the description
where there is no tag; there they are trimmed, and a group that is still open is not closed by
them.  So lines that are equal up to the empty ones at their ends are read alike.
-/

namespace ApiAssembly.Comment

/-- The second lines are the first ones with empty lines behind them. -/
def Continues (lines others : List (List Char)) : Prop :=
  ∃ blanks, (∀ line ∈ blanks, line = []) ∧ others = lines ++ blanks

theorem Continues.cons {lines others : List (List Char)} (continues : Continues lines others)
    (line : List Char) : Continues (line :: lines) (line :: others) := by
  obtain ⟨blanks, empty, rfl⟩ := continues
  exact ⟨blanks, empty, rfl⟩

section Reading

variable {lines others more longer : List (List Char)}

theorem joinTrimmed_eq_of_continues (continues : Continues lines others) :
    joinTrimmed others = joinTrimmed lines := by
  obtain ⟨blanks, empty, rfl⟩ := continues
  have blank : ∀ line ∈ blanks, isBlankLine line = true := by
    intro line member
    rw [empty line member]
    rfl
  rw [joinTrimmed, joinTrimmed, List.dropWhile_append]
  cases started : lines.dropWhile isBlankLine with
  | nil =>
      rw [List.isEmpty_nil, if_pos rfl, List.dropWhile_eq_nil_iff.mpr blank]
  | cons line rest =>
      have behind : ∀ line ∈ blanks.reverse, isBlankLine line = true := by
        simpa only [List.mem_reverse] using blank
      rw [List.isEmpty_cons, if_neg Bool.false_ne_true, List.reverse_append,
        List.dropWhile_append_of_pos behind]

theorem describe_eq_of_continues (continues : Continues more longer) (line : List Char) :
    describe line longer = describe line more := by
  rw [describe, describe, joinTrimmed_eq_of_continues (continues.cons line)]

theorem closeBraces_of_empty (empty : ∀ line ∈ more, line = []) (depth : Nat) :
    closeBraces depth [] more = none := by
  induction more generalizing depth with
  | nil => rfl
  | cons line more ih =>
      rw [List.forall_mem_cons] at empty
      rw [closeBraces_of_open_cons (closeGroup_nil _ _ depth), empty.1, ih empty.2]
      rfl

/-- A group is closed within the lines as it is within the lines that go on, and it stays open
at the end of both. -/
theorem closeBraces_append {blanks : List (List Char)} (empty : ∀ line ∈ blanks, line = [])
    (depth : Nat) (line : List Char) (more : List (List Char)) :
    closeBraces depth line (more ++ blanks) =
      (closeBraces depth line more).map fun (inside, after, unused) =>
        (inside, after, unused ++ blanks) := by
  induction more generalizing depth line with
  | nil =>
      cases read : closeGroup '{' '}' depth line with
      | ok found => rw [closeBraces_of_closed read, closeBraces_of_closed read, Option.map_some]
      | error deeper =>
          cases blanks with
          | nil => rw [List.append_nil, closeBraces_of_open_nil read, Option.map_none]
          | cons next blanks =>
              rw [List.forall_mem_cons] at empty
              rw [List.nil_append, closeBraces_of_open_nil read, closeBraces_of_open_cons read,
                empty.1, closeBraces_of_empty empty.2, Option.map_none, Option.map_none]
  | cons next more ih =>
      cases read : closeGroup '{' '}' depth line with
      | ok found => rw [closeBraces_of_closed read, closeBraces_of_closed read, Option.map_some]
      | error deeper =>
          rw [List.cons_append, closeBraces_of_open_cons read, closeBraces_of_open_cons read, ih,
            Option.map_map, Option.map_map]
          rfl

theorem readName_eq_of_continues (continues : Continues more longer) (tag : Tag) (number : Nat)
    (text : List Char) : readName tag number text longer = readName tag number text more := by
  unfold readName
  simp only [describe_eq_of_continues continues]

theorem readTag_eq_of_continues (continues : Continues more longer) (number : Nat)
    (text : List Char) : readTag number text longer = readTag number text more := by
  obtain ⟨blanks, empty, rfl⟩ := continues
  unfold readTag
  simp only [closeBraces_append empty]
  split
  next rest started =>
    cases closeBraces 0 rest more with
    | none => rfl
    | some found => exact readName_eq_of_continues ⟨blanks, empty, rfl⟩ _ _ _
  next => exact readName_eq_of_continues ⟨blanks, empty, rfl⟩ _ _ _

end Reading

section Grouping

/-- The same tag with empty lines behind its own. -/
structure TagLines.Continues (group other : TagLines) : Prop where
  number : other.number = group.number
  first : other.first = group.first
  more : Comment.Continues group.more other.more

/-- The lines that go on are grouped as the lines are, and the empty ones stand at the end of
the last group. -/
theorem groupLines_of_continues {lines others : List (List Char)}
    (continues : Continues lines others) (start : Nat) :
    Continues (groupLines (numberLines start lines)).1
        (groupLines (numberLines start others)).1 ∧
      List.Forall₂ TagLines.Continues (groupLines (numberLines start lines)).2
        (groupLines (numberLines start others)).2 := by
  obtain ⟨blanks, empty, rfl⟩ := continues
  induction lines generalizing start with
  | nil =>
      have untagged : ∀ line ∈ blanks, ¬StartsTag line := by
        intro line member
        rw [empty line member]
        decide
      have grouped := groupLines_append untagged start []
      rw [List.append_nil] at grouped
      rw [List.nil_append, grouped]
      exact ⟨⟨blanks, empty, List.append_nil blanks⟩, .nil⟩
  | cons line lines ih =>
      obtain ⟨leading, groups⟩ := ih (start + 1)
      rw [List.cons_append, numberLines, numberLines]
      by_cases tagged : StartsTag line
      · obtain ⟨first, started⟩ := List.head?_eq_some_iff.mp tagged
        rw [groupLines_cons_of_startsTag started, groupLines_cons_of_startsTag started]
        exact ⟨⟨[], by simp, rfl⟩, .cons ⟨rfl, rfl, leading⟩ groups⟩
      · rw [groupLines_cons_of_not_startsTag tagged, groupLines_cons_of_not_startsTag tagged]
        exact ⟨leading.cons line, groups⟩

/-- Tags that differ in the empty lines behind them are read alike. -/
theorem map_readTag_eq {groups others : List TagLines}
    (continues : List.Forall₂ TagLines.Continues groups others) :
    (others.map fun group => readTag group.number group.first group.more) =
      groups.map fun group => readTag group.number group.first group.more := by
  induction continues with
  | nil => rfl
  | cons first _ ih =>
      rw [List.map_cons, List.map_cons, ih, first.number, first.first,
        readTag_eq_of_continues first.more]

end Grouping

/-- The lines of a comment without what stands in front of them. -/
def strippedLines (text : List Char) : List (List Char) :=
  (Text.lines (innerText text)).map stripDelimiter

/-- Comments whose lines are equal up to empty ones at the end are read alike. -/
theorem parseBlock_eq_of_continues {text other : List Char} {lines : List (List Char)}
    (continues : Continues (strippedLines text) lines)
    (continuesOther : Continues (strippedLines other) lines) :
    parseBlock other = { parseBlock text with source := String.ofList other } := by
  obtain ⟨leading, groups⟩ := groupLines_of_continues continues 0
  obtain ⟨leadingOther, groupsOther⟩ := groupLines_of_continues continuesOther 0
  have described := (joinTrimmed_eq_of_continues leading).symm.trans
    (joinTrimmed_eq_of_continues leadingOther)
  have read := (map_readTag_eq groups).symm.trans (map_readTag_eq groupsOther)
  unfold strippedLines at described read
  simp only [parseBlock, described, read]

end ApiAssembly.Comment
