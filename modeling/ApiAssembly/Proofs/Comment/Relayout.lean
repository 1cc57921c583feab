import ApiAssembly.Proofs.Comment.BlankLines
import ApiAssembly.Proofs.Comment.Cutting

/-!
# Comments in another layout

Blanks at the two ends of a line are no part of what the line says, and neither are empty lines
behind the last one.  So a comment may be indented anew, line by line, and its lines may end
with blanks or with carriage returns: the main statement says that it is read as before.  The
lines are compared in steps: those of the other layout are the old ones between blanks, they are
the same ones when the delimiters are stripped, and they are grouped and read alike.
-/

namespace ApiAssembly.Comment

open Text (isBlank trimStart trimEnd)

/-- Blanks that end no line. -/
def IsGap (gap : List Char) : Prop :=
  ∀ c ∈ gap, isBlank c = true ∧ c ≠ '\n'

instance : DecidablePred IsGap :=
  fun gap => inferInstanceAs (Decidable (∀ c ∈ gap, isBlank c = true ∧ c ≠ '\n'))

/-- The second text is the first one with blanks put in before and behind its line feeds. -/
inductive Relaid : List Char → List Char → Prop where
  | nil : Relaid [] []
  | keep {c : Char} {text other : List Char} (within : c ≠ '\n') (rest : Relaid text other) :
      Relaid (c :: text) (c :: other)
  | lineFeed {before after text other : List Char} (padding : IsGap before)
      (indentation : IsGap after) (rest : Relaid text other) :
      Relaid ('\n' :: text) (before ++ '\n' :: (after ++ other))

/-- The text with the same blanks before all its line feeds and the same behind them. -/
def layOut (before after text : List Char) : List Char :=
  text.flatMap fun c => if c = '\n' then before ++ '\n' :: after else [c]

theorem relaid_layOut {before after : List Char} (padding : IsGap before)
    (indentation : IsGap after) (text : List Char) : Relaid text (layOut before after text) := by
  induction text with
  | nil => exact .nil
  | cons c text ih =>
      by_cases ends : c = '\n'
      · subst ends
        have parts : layOut before after ('\n' :: text) =
            before ++ '\n' :: (after ++ layOut before after text) := by
          simp [layOut]
        rw [parts]
        exact .lineFeed padding indentation ih
      · have parts : layOut before after (c :: text) = c :: layOut before after text := by
          simp [layOut, ends]
        rw [parts]
        exact .keep ends ih

section Parts

variable {text other : List Char}

/-- Nothing is put into a text in front that is within a line. -/
theorem Relaid.of_append {front : List Char} (within : '\n' ∉ front)
    (relaid : Relaid (front ++ text) other) :
    ∃ rest, other = front ++ rest ∧ Relaid text rest := by
  induction front generalizing other with
  | nil => exact ⟨other, rfl, relaid⟩
  | cons c front ih =>
      rw [List.mem_cons, not_or] at within
      cases relaid with
      | keep _ later =>
          obtain ⟨rest, rfl, relaid⟩ := ih within.2 later
          exact ⟨rest, rfl, relaid⟩
      | lineFeed => exact absurd rfl within.1

/-- A text that is within a line is laid out as it is. -/
theorem Relaid.eq_of_not_mem (within : '\n' ∉ text) (relaid : Relaid text other) :
    other = text := by
  rw [← List.append_nil text] at relaid
  obtain ⟨rest, rfl, nothing⟩ := relaid.of_append within
  cases nothing
  rw [List.append_nil]

/-- The parts of a text are laid out one after the other. -/
theorem Relaid.exists_append {front back : List Char} (relaid : Relaid (front ++ back) other) :
    ∃ first second, other = first ++ second ∧ Relaid front first ∧ Relaid back second := by
  induction front generalizing other with
  | nil => exact ⟨[], other, rfl, .nil, relaid⟩
  | cons c front ih =>
      cases relaid with
      | keep within later =>
          obtain ⟨first, second, rfl, relaid, behind⟩ := ih later
          exact ⟨c :: first, second, rfl, .keep within relaid, behind⟩
      | @lineFeed before after _ _ padding indentation later =>
          obtain ⟨first, second, rfl, relaid, behind⟩ := ih later
          refine ⟨before ++ '\n' :: (after ++ first), second, ?_,
            .lineFeed padding indentation relaid, behind⟩
          simp

/-- The marks of a comment stay where they are. -/
theorem Relaid.marked {inside : List Char}
    (relaid : Relaid (openingMark ++ inside ++ closingMark) other) :
    ∃ within, other = openingMark ++ within ++ closingMark ∧ Relaid inside within := by
  obtain ⟨front, back, rfl, opened, closed⟩ := relaid.exists_append
  obtain ⟨within, rfl, between⟩ := opened.of_append (by decide)
  rw [closed.eq_of_not_mem (by decide)]
  exact ⟨within, rfl, between⟩

end Parts

section Stripping

variable {line blanks : List Char}

theorem trimStart_append_of_blank (blank : ∀ c ∈ blanks, isBlank c = true) (text : List Char) :
    trimStart (blanks ++ text) = trimStart text :=
  List.dropWhile_append_of_pos blank

theorem trimEnd_append_of_blank (text : List Char) (blank : ∀ c ∈ blanks, isBlank c = true) :
    trimEnd (text ++ blanks) = trimEnd text := by
  rw [trimEnd, List.reverse_append, List.dropWhile_append_of_pos (by simpa using blank)]
  rfl

theorem trimEnd_of_blank (blank : ∀ c ∈ blanks, isBlank c = true) : trimEnd blanks = [] :=
  trimEnd_append_of_blank [] blank

/-- The text without one blank in front of it. -/
def dropSpace : List Char → List Char
  | [] => []
  | c :: rest => if c = ' ' ∨ c = '\t' then rest else c :: rest

/-- The text without the star in front of it and one blank behind the star. -/
def behindStar : List Char → List Char
  | '*' :: rest => dropSpace rest
  | plain => plain

theorem stripDelimiter_eq (line : List Char) :
    stripDelimiter line = trimEnd (behindStar (trimStart line)) := by
  rw [stripDelimiter]
  split
  next rest started => rw [started]; rfl
  next rest started => rw [started]; rfl
  next rest noSpace noTab started =>
    rw [started, behindStar]
    cases rest with
    | nil => rfl
    | cons c rest =>
        have other : ¬(c = ' ' ∨ c = '\t') := by
          rintro (rfl | rfl)
          · exact noSpace rest rfl
          · exact noTab rest rfl
        rw [dropSpace, if_neg other]
  next noStar =>
    cases started : trimStart line with
    | nil => rfl
    | cons c rest =>
        have other : c ≠ '*' := by
          rintro rfl
          exact noStar rest started
        simp [behindStar, other]

/-- Blanks at the end of a line are no part of what stands behind its star. -/
theorem trimEnd_dropSpace_append (text : List Char) (blank : ∀ c ∈ blanks, isBlank c = true) :
    trimEnd (dropSpace (text ++ blanks)) = trimEnd (dropSpace text) := by
  cases text with
  | nil =>
      -- The blank behind the star may be the first of those at the end.
      cases blanks with
      | nil => rfl
      | cons c blanks =>
          rw [List.forall_mem_cons] at blank
          have nothing : trimEnd (dropSpace (c :: blanks)) = [] := by
            rw [dropSpace]
            split
            · exact trimEnd_of_blank blank.2
            · exact trimEnd_of_blank (List.forall_mem_cons.mpr blank)
          exact nothing
  | cons c text =>
      rw [List.cons_append, dropSpace, dropSpace]
      split
      · exact trimEnd_append_of_blank text blank
      · exact trimEnd_append_of_blank (c :: text) blank

theorem trimEnd_behindStar_append (text : List Char) (blank : ∀ c ∈ blanks, isBlank c = true) :
    trimEnd (behindStar (text ++ blanks)) = trimEnd (behindStar text) := by
  cases text with
  | nil =>
      have plain : behindStar blanks = blanks := by
        cases blanks with
        | nil => rfl
        | cons c blanks =>
            have noStar : c ≠ '*' := by
              rintro rfl
              exact absurd (blank '*' List.mem_cons_self) (by decide)
            simp [behindStar, noStar]
      rw [List.nil_append, plain, trimEnd_of_blank blank]
      rfl
  | cons c text =>
      by_cases star : c = '*'
      · subst star
        exact trimEnd_dropSpace_append text blank
      · have plain : ∀ rest, behindStar (c :: rest) = c :: rest := by
          intro rest
          simp [behindStar, star]
        rw [List.cons_append, plain, plain]
        exact trimEnd_append_of_blank (c :: text) blank

/-- Blanks at the two ends of a line are no part of what it says. -/
theorem stripDelimiter_between {before after : List Char}
    (beforeBlank : ∀ c ∈ before, isBlank c = true) (line : List Char)
    (afterBlank : ∀ c ∈ after, isBlank c = true) :
    stripDelimiter (before ++ line ++ after) = stripDelimiter line := by
  rw [stripDelimiter_eq, stripDelimiter_eq, List.append_assoc,
    trimStart_append_of_blank beforeBlank]
  cases started : trimStart line with
  | nil =>
      have allBlank : ∀ c ∈ line, isBlank c = true := List.dropWhile_eq_nil_iff.mp started
      rw [trimStart_append_of_blank allBlank, trimStart,
        List.dropWhile_eq_nil_iff.mpr afterBlank]
  | cons c rest =>
      have begun : trimStart (line ++ after) = c :: rest ++ after := by
        rw [trimStart, List.dropWhile_append]
        rw [trimStart] at started
        simp [started]
      rw [begun, trimEnd_behindStar_append (c :: rest) afterBlank]

end Stripping

section Pieces

variable {text other : List Char}

/-- The text with blanks in front of it and behind it. -/
def Between (text other : List Char) : Prop :=
  ∃ before after, (∀ c ∈ before, isBlank c = true) ∧ (∀ c ∈ after, isBlank c = true) ∧
    other = before ++ text ++ after

/-- The text with blanks behind it. -/
def Padded (text other : List Char) : Prop :=
  ∃ padding, (∀ c ∈ padding, isBlank c = true) ∧ other = text ++ padding

theorem Padded.cons (padded : Padded text other) (c : Char) : Padded (c :: text) (c :: other) := by
  obtain ⟨padding, blank, rfl⟩ := padded
  exact ⟨padding, blank, rfl⟩

theorem Padded.between (padded : Padded text other) {indentation : List Char}
    (blank : ∀ c ∈ indentation, isBlank c = true) : Between text (indentation ++ other) := by
  obtain ⟨padding, blankBehind, rfl⟩ := padded
  exact ⟨indentation, padding, blank, blankBehind, (List.append_assoc _ _ _).symm⟩

theorem Between.stripDelimiter_eq (between : Between text other) :
    stripDelimiter other = stripDelimiter text := by
  obtain ⟨before, after, blank, blankBehind, rfl⟩ := between
  exact stripDelimiter_between blank text blankBehind

theorem Padded.stripDelimiter_eq (padded : Padded text other) :
    stripDelimiter other = stripDelimiter text := by
  have between : Between text ([] ++ other) := padded.between (by simp)
  exact between.stripDelimiter_eq

theorem IsGap.blank {gap : List Char} (isGap : IsGap gap) : ∀ c ∈ gap, isBlank c = true :=
  fun c member => (isGap c member).1

theorem IsGap.within {gap : List Char} (isGap : IsGap gap) : '\n' ∉ gap :=
  fun member => (isGap _ member).2 rfl

theorem splitOn_lineFeed_cons (text : List Char) :
    ('\n' :: text).splitOn '\n' = [] :: text.splitOn '\n' := by
  rw [List.splitOn_cons_eq_if_modifyHead, if_pos BEq.rfl]

theorem splitOn_cons_of_ne {c : Char} (within : c ≠ '\n') (text : List Char) :
    (c :: text).splitOn '\n' = (text.splitOn '\n').modifyHead (c :: ·) := by
  rw [List.splitOn_cons_eq_if_modifyHead, if_neg (by simpa using within)]

theorem splitOn_append_of_not_mem {front : List Char} (within : '\n' ∉ front)
    (text : List Char) :
    (front ++ text).splitOn '\n' = (text.splitOn '\n').modifyHead (front ++ ·) := by
  induction front with
  | nil => exact (congrFun List.modifyHead_id _).symm
  | cons c front ih =>
      rw [List.mem_cons, not_or] at within
      rw [List.cons_append, splitOn_cons_of_ne (Ne.symm within.1), ih within.2,
        List.modifyHead_modifyHead]
      rfl

/-- In another layout the pieces of a text stand between blanks.  The first piece follows no
line feed: it has blanks behind it alone. -/
theorem Relaid.splitOn (relaid : Relaid text other) :
    ∃ first second more others, text.splitOn '\n' = first :: more ∧
      other.splitOn '\n' = second :: others ∧ Padded first second ∧
      List.Forall₂ Between more others := by
  induction relaid with
  | nil =>
      exact ⟨[], [], [], [], List.splitOn_nil _, List.splitOn_nil _, ⟨[], by simp, rfl⟩, .nil⟩
  | @keep c text other within _ ih =>
      obtain ⟨first, second, more, others, pieces, otherPieces, padded, between⟩ := ih
      refine ⟨c :: first, c :: second, more, others, ?_, ?_, padded.cons c, between⟩
      · rw [splitOn_cons_of_ne within, pieces, List.modifyHead_cons]
      · rw [splitOn_cons_of_ne within, otherPieces, List.modifyHead_cons]
  | @lineFeed before after text other padding indentation _ ih =>
      obtain ⟨first, second, more, others, pieces, otherPieces, padded, between⟩ := ih
      refine ⟨[], before, first :: more, (after ++ second) :: others, ?_, ?_,
        ⟨before, padding.blank, rfl⟩, .cons (padded.between indentation.blank) between⟩
      · rw [splitOn_lineFeed_cons, pieces]
      · rw [splitOn_append_of_not_mem padding.within, splitOn_lineFeed_cons,
          splitOn_append_of_not_mem indentation.within, otherPieces, List.modifyHead_cons,
          List.modifyHead_cons, List.append_nil]

end Pieces

section Lines

/-- The lines of a text are the pieces between its line feeds, without carriage returns at their
ends and without an empty piece at the end. -/
theorem splitOn_eq_lines_append (text : List Char) :
    ∃ pieces blanks, text.splitOn '\n' = pieces ++ blanks ∧
      List.Forall₂ Padded (Text.lines text) pieces ∧ ∀ piece ∈ blanks, piece = [] := by
  fun_induction Text.lines text with
  | case1 => exact ⟨[], [[]], List.splitOn_nil _, .nil, by simp⟩
  | case2 rest ih =>
      obtain ⟨pieces, blanks, parts, padded, empty⟩ := ih
      refine ⟨[] :: pieces, blanks, ?_, .cons ⟨[], by simp, rfl⟩ padded, empty⟩
      rw [splitOn_lineFeed_cons, parts, List.cons_append]
  | case3 c rest within carriage ih =>
      obtain ⟨pieces, blanks, parts, padded, empty⟩ := ih
      obtain ⟨rfl, feed⟩ := carriage
      obtain ⟨behind, rfl⟩ := List.head?_eq_some_iff.mp feed
      rw [Text.lines, if_pos rfl] at padded ⊢
      cases padded with
      | @cons _ piece _ pieces first more =>
          obtain ⟨padding, blank, whole⟩ := first
          refine ⟨('\r' :: piece) :: pieces, blanks, ?_, .cons ⟨'\r' :: padding, ?_, ?_⟩ more,
            empty⟩
          · rw [splitOn_cons_of_ne within, parts]
            rfl
          · exact List.forall_mem_cons.mpr ⟨by decide, blank⟩
          · rw [whole]
            rfl
  | case4 c rest within _ ended ih =>
      obtain ⟨pieces, blanks, parts, padded, empty⟩ := ih
      rw [ended] at padded
      cases padded
      cases blanks with
      | nil => exact absurd parts (List.splitOn_ne_nil '\n' rest)
      | cons piece blanks =>
          rw [List.forall_mem_cons] at empty
          refine ⟨[[c]], blanks, ?_, .cons ⟨[], by simp, rfl⟩ .nil, empty.2⟩
          rw [splitOn_cons_of_ne within, parts, empty.1]
          rfl
  | case5 c rest within _ line more found ih =>
      obtain ⟨pieces, blanks, parts, padded, empty⟩ := ih
      rw [found] at padded
      cases padded with
      | @cons _ piece _ pieces first more =>
          refine ⟨(c :: piece) :: pieces, blanks, ?_, .cons (first.cons c) more, empty⟩
          rw [splitOn_cons_of_ne within, parts]
          rfl

theorem map_stripDelimiter_eq {related : List Char → List Char → Prop}
    (alike : ∀ line other, related line other → stripDelimiter other = stripDelimiter line)
    {lines others : List (List Char)} (each : List.Forall₂ related lines others) :
    others.map stripDelimiter = lines.map stripDelimiter := by
  induction each with
  | nil => rfl
  | cons first _ ih => rw [List.map_cons, List.map_cons, alike _ _ first, ih]

/-- The pieces between the line feeds say what the lines say, and end with empty lines. -/
theorem continues_map_splitOn (text : List Char) :
    Continues ((Text.lines text).map stripDelimiter)
      ((text.splitOn '\n').map stripDelimiter) := by
  obtain ⟨pieces, blanks, parts, padded, empty⟩ := splitOn_eq_lines_append text
  refine ⟨blanks.map stripDelimiter, ?_, ?_⟩
  · intro line member
    obtain ⟨piece, inBlanks, rfl⟩ := List.mem_map.mp member
    rw [empty piece inBlanks]
    rfl
  · rw [parts, List.map_append, map_stripDelimiter_eq (fun _ _ => Padded.stripDelimiter_eq) padded]

/-- The lines of a comment are those between its marks, up to empty ones at the end. -/
theorem continues_strippedLines (inside : List Char) :
    Continues (strippedLines (openingMark ++ inside ++ closingMark))
      ((inside.splitOn '\n').map stripDelimiter) := by
  have read : innerText (openingMark ++ inside ++ closingMark) = inside := innerText_marked inside
  rw [strippedLines, read]
  exact continues_map_splitOn inside

theorem Relaid.map_splitOn {text other : List Char} (relaid : Relaid text other) :
    (other.splitOn '\n').map stripDelimiter = (text.splitOn '\n').map stripDelimiter := by
  obtain ⟨first, second, more, others, pieces, otherPieces, padded, between⟩ := relaid.splitOn
  rw [pieces, otherPieces, List.map_cons, List.map_cons, padded.stripDelimiter_eq,
    map_stripDelimiter_eq (fun _ _ => Between.stripDelimiter_eq) between]

end Lines

/-- A comment in another layout is read as the same description and the same tags, with the
same problems. -/
theorem parseBlock_relaid {text other : List Char} (marked : IsMarked text)
    (relaid : Relaid text other) :
    (parseBlock other).description = (parseBlock text).description ∧
      (parseBlock other).tags = (parseBlock text).tags ∧
      (parseBlock other).problems = (parseBlock text).problems := by
  obtain ⟨inside, rfl⟩ := isMarked_iff.mp marked
  obtain ⟨within, rfl, between⟩ := relaid.marked
  have continuesOther := continues_strippedLines within
  rw [between.map_splitOn] at continuesOther
  rw [parseBlock_eq_of_continues (continues_strippedLines inside) continuesOther]
  exact ⟨rfl, rfl, rfl⟩

/-- A comment with a type over two lines, an indented description and an open group. -/
def compactComment : List Char :=
  "/**\n* Orders\n* @param \x7b\x7ba:\n*   b\x7d\x7d [limit=10] How\n*   many\n".toList ++
    "* @see \x7bb\n*/".toList

/-- The comment with indented lines that end with carriage returns. -/
def indentedComment : List Char :=
  layOut [' ', '\r'] ['\t', ' '] compactComment

theorem parseBlock_indentedComment :
    IsMarked compactComment ∧ Relaid compactComment indentedComment ∧
      (parseBlock indentedComment).description = "Orders" ∧
      (parseBlock indentedComment).tags =
        [{ title := "param", typeText := "\x7ba:\n  b\x7d", name := "limit", optional := true,
           defaultText := some "10", description := "How\n  many" }, { title := "see" }] ∧
      (parseBlock indentedComment).problems = [⟨.unpairedBrace, "see", 5⟩] := by
  have marked : IsMarked compactComment := by decide
  have relaid : Relaid compactComment indentedComment :=
    relaid_layOut (by decide) (by decide) compactComment
  obtain ⟨description, tags, problems⟩ := parseBlock_relaid marked relaid
  rw [description, tags, problems]
  exact ⟨marked, relaid, by decide, by decide, by decide⟩

end ApiAssembly.Comment
