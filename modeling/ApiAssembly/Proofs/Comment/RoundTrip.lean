import ApiAssembly.Proofs.Comment.Writing

/-!
# Written comments are read back

Reading takes the lines of a written comment apart in the way in which writing put them
together: the lines in front of the first tag are the description, and every tag gets its
own line and the lines below it, with no problem on the way.
-/

namespace ApiAssembly.Comment

open Text (isBlank trimStart Unindented Unpadded)

section Descriptions

theorem isBlankLine_of_unpadded {line : List Char} (unpadded : Unpadded line)
    (inhabited : line ≠ []) : isBlankLine line = false := by
  have last := unpadded (line.getLast inhabited) (List.getLast?_eq_some_getLast inhabited)
  have member := List.getLast_mem inhabited
  rw [isBlankLine, List.all_eq_false]
  exact ⟨_, member, by simp [last]⟩

/-- Lines that neither begin nor end with a blank one are what is left between blank lines. -/
theorem joinTrimmed_between {front lines back : List (List Char)}
    (frontBlank : ∀ line ∈ front, isBlankLine line = true)
    (backBlank : ∀ line ∈ back, isBlankLine line = true)
    (first : ∀ line ∈ lines.head?, isBlankLine line = false)
    (last : ∀ line ∈ lines.getLast?, isBlankLine line = false) :
    joinTrimmed (front ++ lines ++ back) = Text.joinLines lines := by
  cases lines with
  | nil =>
      have allBlank : (front ++ [] ++ back).dropWhile isBlankLine = [] := by
        rw [List.append_nil, List.dropWhile_append_of_pos frontBlank, List.dropWhile_eq_nil_iff]
        exact backBlank
      rw [joinTrimmed, allBlank]
      rfl
  | cons line more =>
      have started : (front ++ line :: more ++ back).dropWhile isBlankLine =
          line :: more ++ back := by
        rw [List.append_assoc, List.dropWhile_append_of_pos frontBlank]
        exact Text.dropWhile_eq_self first
      have ended : (line :: more ++ back).reverse.dropWhile isBlankLine =
          (line :: more).reverse := by
        rw [List.reverse_append, List.dropWhile_append_of_pos (by simpa using backBlank)]
        exact Text.dropWhile_eq_self (by simpa only [List.head?_reverse] using last)
      rw [joinTrimmed, started, ended, List.reverse_reverse]

theorem Tidy.joinTrimmed_between {lines : List (List Char)} (tidy : Tidy lines)
    {front back : List (List Char)} (frontEmpty : ∀ line ∈ front, line = [])
    (backEmpty : ∀ line ∈ back, line = []) :
    joinTrimmed (front ++ lines ++ back) = Text.joinLines lines := by
  apply Comment.joinTrimmed_between
  · intro line member
    rw [frontEmpty line member]
    rfl
  · intro line member
    rw [backEmpty line member]
    rfl
  · intro line member
    apply isBlankLine_of_unpadded (tidy.unpadded line (List.mem_of_mem_head? member))
    rintro rfl
    exact tidy.first member
  · intro line member
    apply isBlankLine_of_unpadded (tidy.unpadded line (List.mem_of_mem_getLast? member))
    rintro rfl
    exact tidy.last member

theorem joinLines_descriptionLines (description : String) :
    Text.joinLines (descriptionLines description) = description.toList := by
  rw [descriptionLines]
  split
  · rename_i empty
    rw [empty]
    rfl
  · exact Text.joinLines_splitOn _

theorem unpadded_of_tidy {description : String} (tidy : Tidy (descriptionLines description)) :
    Unpadded description.toList := by
  rw [← joinLines_descriptionLines]
  cases ended : (descriptionLines description).getLast? with
  | none =>
      rw [List.getLast?_eq_none_iff.mp ended]
      exact Text.unpadded_nil
  | some line =>
      have inhabited : line ≠ [] := by
        rintro rfl
        exact tidy.last ended
      obtain ⟨front, whole⟩ := List.getLast?_eq_some_iff.mp ended
      have unpadded := tidy.unpadded line (List.mem_of_mem_getLast? ended)
      intro c member
      rw [whole, Text.getLast?_joinLines inhabited] at member
      exact unpadded c member

end Descriptions

section Grouping

theorem groupLines_cons_of_not_startsTag {number : Nat} {line : List Char}
    (untagged : ¬StartsTag line) (rest : List (Nat × List Char)) :
    groupLines ((number, line) :: rest) =
      (line :: (groupLines rest).1, (groupLines rest).2) := by
  rw [groupLines]
  split
  rename_i leading groups grouped
  split
  · rename_i first started
    exact absurd (by rw [StartsTag, started]; rfl) untagged
  · rw [grouped]

theorem groupLines_cons_of_startsTag {line text : List Char}
    (started : trimStart line = '@' :: text) (number : Nat) (rest : List (Nat × List Char)) :
    groupLines ((number, line) :: rest) =
      ([], ⟨number, text, (groupLines rest).1⟩ :: (groupLines rest).2) := by
  rw [groupLines, started]
  rfl

theorem groupLines_cons_tag (number : Nat) (text : List Char)
    (rest : List (Nat × List Char)) :
    groupLines ((number, '@' :: text) :: rest) =
      ([], ⟨number, text, (groupLines rest).1⟩ :: (groupLines rest).2) :=
  groupLines_cons_of_startsTag (Text.trimStart_of_not_isBlank (by decide)) number rest

/-- Lines in front of others belong to what these begin with. -/
theorem groupLines_append {lines : List (List Char)}
    (untagged : ∀ line ∈ lines, ¬StartsTag line) (start : Nat) (rest : List (List Char)) :
    groupLines (numberLines start (lines ++ rest)) =
      (lines ++ (groupLines (numberLines (start + lines.length) rest)).1,
        (groupLines (numberLines (start + lines.length) rest)).2) := by
  induction lines generalizing start with
  | nil => rfl
  | cons line lines ih =>
      have later := ih (fun other member => untagged other (by simp [member])) (start + 1)
      rw [List.cons_append, numberLines,
        groupLines_cons_of_not_startsTag (untagged line (by simp)), later,
        Nat.add_right_comm, Nat.add_assoc]
      rfl

end Grouping

section Tags

/-- What stands behind a blank begins with the blank. -/
theorem head?_spaced_append {part rest : List Char} (blank : ∀ c ∈ rest.head?, c = ' ') :
    ∀ c ∈ (spaced part ++ rest).head?, c = ' ' := by
  cases part with
  | nil => exact blank
  | cons first part =>
      intro c member
      simpa [spaced, eq_comm] using member

theorem head?_spaced (part : List Char) : ∀ c ∈ (spaced part).head?, c = ' ' := by
  have alone : ∀ c ∈ (spaced part ++ []).head?, c = ' ' := head?_spaced_append (by simp)
  rwa [List.append_nil] at alone

theorem trimStart_spaced {part : List Char} (unindented : Unindented part)
    {rest : List Char} (last : part = [] → rest = []) :
    trimStart (spaced part ++ rest) = part ++ rest := by
  cases part with
  | nil =>
      rw [last rfl]
      rfl
  | cons c part =>
      have started : trimStart (c :: (part ++ rest)) = c :: (part ++ rest) :=
        Text.trimStart_of_not_isBlank (unindented c rfl)
      rw [spaced, List.cons_append, List.cons_append, trimStart,
        List.dropWhile_cons_of_pos (by decide)]
      exact started

/-- The lines beside and below a name are those of the description, perhaps behind an empty
one. -/
theorem exists_besideName_cons (tag : Tag) :
    ∃ front, (∀ line ∈ front, line = []) ∧
      besideName tag :: belowName tag = front ++ descriptionLines tag.description := by
  rw [besideName, belowName]
  split
  · exact ⟨[[]], by simp, rfl⟩
  · cases descriptionLines tag.description with
    | nil => exact ⟨[[]], by simp, rfl⟩
    | cons line more => exact ⟨[], by simp, rfl⟩

theorem describe_written {tag : Tag} (writable : Writable tag) {blanks : List (List Char)}
    (blank : ∀ line ∈ blanks, line = []) :
    describe (besideName tag) (belowName tag ++ blanks) = tag.description := by
  obtain ⟨front, empty, lines⟩ := exists_besideName_cons tag
  rw [describe, ← List.cons_append, lines, writable.tidy.joinTrimmed_between empty blank,
    joinLines_descriptionLines, (unpadded_of_tidy writable.tidy).trimEnd_eq, String.ofList_toList]

theorem readOptional_written {tag : Tag} (name : BracketedName tag) (number : Nat) :
    readOptional { title := tag.title, typeText := tag.typeText } number (nameAndDefault tag) =
      ({ title := tag.title, typeText := tag.typeText, name := tag.name, optional := true,
         defaultText := tag.defaultText }, []) := by
  obtain ⟨unindented, unpadded, unassigned⟩ := name.name
  have inhabited : tag.name.toList ≠ [] := by
    simpa [String.toList_eq_nil_iff] using name.named
  cases given : tag.defaultText with
  | none =>
      simp [readOptional, nameAndDefault, given, Text.splitFirst_of_not_mem unassigned,
        Text.trim_eq unindented unpadded, inhabited]
  | some text =>
      obtain ⟨textNamed, textUnindented, textUnpadded⟩ := name.default text given
      have textInhabited : text.toList ≠ [] := by
        simpa [String.toList_eq_nil_iff] using textNamed
      simp [readOptional, nameAndDefault, given, Text.splitFirst_append unassigned,
        Text.trim_eq unindented unpadded, Text.trim_eq textUnindented textUnpadded, inhabited,
        textInhabited]

/-- A text that does not begin with a bracket begins with the name, up to a blank. -/
theorem readName_of_head? {tag : Tag} {number : Nat} {text : List Char}
    (plain : text.head? ≠ some '[') (more : List (List Char)) :
    readName tag number text more =
      ({ tag with
          name := String.ofList (text.span fun c => !isBlank c).1
          description := describe (trimStart (text.span fun c => !isBlank c).2) more }, []) := by
  unfold readName
  split
  · exact absurd rfl plain
  · rfl

theorem readName_written {tag : Tag} (writable : Writable tag) (number : Nat)
    {blanks : List (List Char)} (blank : ∀ line ∈ blanks, line = []) :
    readName { title := tag.title, typeText := tag.typeText } number
      (namePart tag ++ spaced (besideName tag)) (belowName tag ++ blanks) = (tag, []) := by
  have beside : trimStart (spaced (besideName tag)) = besideName tag := by
    have trimmed : trimStart (spaced (besideName tag) ++ []) = besideName tag ++ [] :=
      trimStart_spaced writable.beside fun _ => rfl
    rwa [List.append_nil, List.append_nil] at trimmed
  have described := describe_written writable blank
  have name := writable.name
  rw [namePart]
  split at name
  · rename_i optional
    have distinct : '[' ≠ ']' := by decide
    have closed := closeGroup_of_balanced distinct name.balanced (spaced (besideName tag))
    rw [if_pos optional, List.cons_append, List.cons_append, List.append_assoc,
      List.singleton_append, readName, closed]
    simp only [readOptional_written name, beside, described, ← optional]
  · rename_i plain
    have noBracket : (tag.name.toList ++ spaced (besideName tag)).head? ≠ some '[' := by
      cases shape : tag.name.toList with
      | nil =>
          intro bracket
          exact absurd (head?_spaced _ _ bracket) (by decide)
      | cons c rest => simpa [shape] using name.noBracket
    have cut : (tag.name.toList ++ spaced (besideName tag)).span (fun c => !isBlank c) =
        (tag.name.toList, spaced (besideName tag)) := by
      apply Text.span_append
      · intro c member
        simp [name.solid c member]
      · intro c member
        rw [head?_spaced _ c member]
        decide
    have mandatory : tag.optional = false := by simpa using plain
    rw [if_neg plain, readName_of_head? noBracket, cut]
    simp only [beside, described, String.ofList_toList, ← mandatory, ← name.noDefault]

theorem unindented_namePart {tag : Tag} (writable : Writable tag) :
    Unindented (namePart tag) := by
  have name := writable.name
  rw [namePart]
  split at name
  · rename_i optional
    rw [if_pos optional]
    intro c member
    obtain rfl := Option.some.inj member
    decide
  · rename_i plain
    rw [if_neg plain]
    exact Text.unindented_of_forall name.solid

theorem besideName_eq_nil {tag : Tag} (unnamed : namePart tag = []) : besideName tag = [] := by
  rw [namePart] at unnamed
  split at unnamed
  · cases unnamed
  · rw [besideName, if_pos (String.toList_eq_nil_iff.mp unnamed)]

/-- Without a type, the name is not taken for one. -/
theorem head?_namePart {tag : Tag} (writable : Writable tag) (untyped : tag.typeText = "") :
    (namePart tag ++ spaced (besideName tag)).head? ≠ some '{' := by
  have name := writable.name
  rw [namePart]
  split at name
  · rename_i optional
    rw [if_pos optional]
    intro brace
    exact absurd (Option.some.inj brace) (by decide)
  · rename_i plain
    rw [if_neg plain]
    cases shape : tag.name.toList with
    | nil =>
        intro brace
        exact absurd (head?_spaced _ _ brace) (by decide)
    | cons c rest => simpa [shape] using name.noBrace untyped

/-- A tag without a group in braces is read on from its name. -/
theorem readTag_of_head? {number : Nat} {text title rest : List Char}
    (titled : text.span (fun c => !(isBlank c || c = '{')) = (title, rest))
    (untyped : (trimStart rest).head? ≠ some '{') (more : List (List Char)) :
    readTag number text more =
      readName { title := String.ofList title } number (trimStart rest) more := by
  rw [readTag, titled]
  dsimp only
  split
  · rename_i inside started
    rw [started] at untyped
    exact absurd rfl untyped
  · rfl

/-- A written title and a written type are read back, and the name is read behind them. -/
theorem readTag_tagText {tag : Tag} (number : Nat) (more : List (List Char))
    (title : ∀ c ∈ tag.title.toList, isBlank c = false ∧ c ≠ '{')
    (unindented : Unindented tag.typeText.toList) (unpadded : Unpadded tag.typeText.toList)
    (balanced : Balanced '{' '}' tag.typeText.toList) (name : Unindented (namePart tag))
    (alone : namePart tag = [] → besideName tag = [])
    (noBrace : tag.typeText = "" → (namePart tag ++ spaced (besideName tag)).head? ≠ some '{') :
    readTag number (tagText tag) more =
      readName { title := tag.title, typeText := tag.typeText } number
        (namePart tag ++ spaced (besideName tag)) more := by
  let named := spaced (namePart tag) ++ spaced (besideName tag)
  have titled : (tagText tag).span (fun c => !(isBlank c || c = '{')) =
      (tag.title.toList, spaced (typePart tag) ++ named) := by
    apply Text.span_append
    · intro c member
      simp [title c member]
    · intro c member
      rw [head?_spaced_append (head?_spaced_append (head?_spaced _)) c member]
      decide
  have started : trimStart named = namePart tag ++ spaced (besideName tag) := by
    refine trimStart_spaced name fun unnamed => ?_
    rw [alone unnamed]
    rfl
  by_cases untyped : tag.typeText = ""
  · have absent : spaced (typePart tag) ++ named = named := by
      rw [typePart, if_pos untyped]
      rfl
    rw [absent] at titled
    rw [readTag_of_head? titled (by rw [started]; exact noBrace untyped), started,
      String.ofList_toList, untyped]
  · have opened : trimStart (spaced (typePart tag) ++ named) =
        '{' :: (tag.typeText.toList ++ '}' :: named) := by
      have present : typePart tag = '{' :: tag.typeText.toList ++ ['}'] := by
        rw [typePart, if_neg untyped]
      rw [present, trimStart_spaced _ (by simp)]
      · simp
      · intro c member
        obtain rfl := Option.some.inj member
        decide
    rw [readTag, titled]
    simp only [opened, closeBraces_of_balanced balanced, Text.trim_eq unindented unpadded,
      started, String.ofList_toList]

theorem readTag_written {tag : Tag} (writable : Writable tag) (number : Nat)
    {blanks : List (List Char)} (blank : ∀ line ∈ blanks, line = []) :
    readTag number (tagText tag) (belowName tag ++ blanks) = (tag, []) := by
  obtain ⟨unindented, unpadded, -, balanced⟩ := writable.type
  rw [readTag_tagText number _ writable.title unindented unpadded balanced
    (unindented_namePart writable) besideName_eq_nil (head?_namePart writable)]
  exact readName_written writable number blank

/-- The lines of tags are grouped and read as these tags. -/
theorem readTags_written {tags : List Tag} (writable : ∀ tag ∈ tags, Writable tag)
    (start : Nat) :
    (∀ line ∈ (groupLines (numberLines start (tags.flatMap tagLines ++ [[]]))).1, line = []) ∧
      ((groupLines (numberLines start (tags.flatMap tagLines ++ [[]]))).2.map fun group =>
        readTag group.number group.first group.more) = tags.map fun tag => (tag, []) := by
  induction tags generalizing start with
  | nil =>
      have grouped : groupLines (numberLines start ([].flatMap tagLines ++ [[]])) = ([[]], []) :=
        rfl
      rw [grouped]
      simp
  | cons tag tags ih =>
      have below := (writable tag (by simp)).below
      obtain ⟨blank, read⟩ := ih (fun other member => writable other (by simp [member]))
        (start + 1 + (belowName tag).length)
      have lines : (tag :: tags).flatMap tagLines ++ [[]] =
          ('@' :: tagText tag) :: (belowName tag ++ (tags.flatMap tagLines ++ [[]])) := by
        simp [tagLines]
      rw [lines, numberLines, groupLines_cons_tag, groupLines_append below]
      refine ⟨by simp, ?_⟩
      rw [List.map_cons, List.map_cons, read, readTag_written (writable tag (by simp)) start blank]

end Tags

/-- A written comment is read as the description and the tags of which it was written, and
without a problem. -/
theorem parseBlock_write {description : String} {tags : List Tag}
    (described : WritableDescription description) (writable : ∀ tag ∈ tags, Writable tag) :
    parseBlock (write description tags) =
      { source := String.ofList (write description tags), description, tags, problems := [] } := by
  let leading := [] :: descriptionLines description
  have untagged : ∀ line ∈ leading, ¬StartsTag line := by
    intro line member
    rcases List.mem_cons.mp member with rfl | inDescription
    · decide
    · exact described.untagged line inDescription
  have lines : (Text.lines (innerText (write description tags))).map stripDelimiter =
      leading ++ (tags.flatMap tagLines ++ [[]]) := by
    rw [strippedLines_write described writable, commentLines]
    simp [leading]
  obtain ⟨blank, read⟩ := readTags_written writable (0 + leading.length)
  have frontEmpty : ∀ line ∈ [([] : List Char)], line = [] := by simp
  have joined : joinTrimmed (leading ++ _) = description.toList :=
    (described.tidy.joinTrimmed_between frontEmpty blank).trans
      (joinLines_descriptionLines description)
  have trimmed := Text.trim_eq described.unindented (unpadded_of_tidy described.tidy)
  rw [parseBlock, lines, groupLines_append untagged]
  simp only [joined, trimmed, read, String.ofList_toList, List.map_map, List.flatMap_map,
    Block.mk.injEq, true_and]
  exact ⟨List.map_id tags, by simp⟩

/-- A tag with an indented text below it and no name, a tag with all parts, and a tag with a
name alone. -/
def writtenTags : List Tag :=
  [{ title := "openapi", description := "paths:\n  /orders:\n    get: x" },
    { title := "property", typeText := "{a: {b: number}}", name := "limit", optional := true,
      defaultText := some "[1, [2]]", description := "@most\n\n  so many" },
    { title := "deprecated", name := "\x7bx", typeText := "y" }]

def writtenDescription : String := "Orders\n\n * of a shop"

/-- The written tags are read back from below the written description. -/
theorem parseBlock_writtenTags :
    WritableDescription writtenDescription ∧ (∀ tag ∈ writtenTags, Writable tag) ∧
      (parseBlock (write writtenDescription writtenTags)).description = writtenDescription ∧
      (parseBlock (write writtenDescription writtenTags)).tags = writtenTags ∧
      (parseBlock (write writtenDescription writtenTags)).problems = [] := by
  have described : WritableDescription writtenDescription := by decide
  have writable : ∀ tag ∈ writtenTags, Writable tag := by decide
  rw [parseBlock_write described writable]
  exact ⟨described, writable, rfl, rfl, rfl⟩

end ApiAssembly.Comment
