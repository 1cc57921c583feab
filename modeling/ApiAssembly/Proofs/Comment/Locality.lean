import ApiAssembly.Proofs.Comment.Extraction

/-!
# Comments of a text and of its parts

A text that leaves no comment open has its comments to itself: whatever stands behind it has
the comments that it has alone.  The one thing to watch for is the border, where a star could
complete an opening mark.

An empty plain comment is not such a text.  Its first three characters are an opening mark,
and the closing mark that ends it begins before that mark is over.  So it opens a comment that
goes on to the next closing mark, and what stands up to there is hidden.
-/

namespace ApiAssembly

namespace Comment

/-- No comment is left open in a text. -/
inductive Settled : List Char → Prop where
  | plain {text : List Char} (absent : Text.find? ['/', '*', '*'] text = none) : Settled text
  | comment {text front body inside rest : List Char}
      (opened : Text.find? ['/', '*', '*'] text = some (front, body))
      (closed : Text.find? ['*', '/'] body = some (inside, rest))
      (settled : Settled rest) : Settled text

section Borders

/-- Characters in front of the first opening mark are in no comment. -/
theorem blockTexts_of_moved {text more : List Char} (front : List Char)
    (moved : Text.find? openingMark text =
      (Text.find? openingMark more).map fun cut => (front ++ cut.1, cut.2)) :
    blockTexts text = blockTexts more := by
  cases opened : Text.find? openingMark more with
  | none =>
      rw [opened] at moved
      rw [blockTexts_of_absent moved, blockTexts_of_absent opened]
  | some cut =>
      obtain ⟨before, body⟩ := cut
      rw [opened] at moved
      cases closed : Text.find? closingMark body with
      | none => rw [blockTexts_of_open moved closed, blockTexts_of_open opened closed]
      | some cut => rw [blockTexts_of_closed moved closed, blockTexts_of_closed opened closed]

theorem blockTexts_append_of_absent {text more : List Char}
    (absent : Text.find? openingMark text = none) (outside : more.head? ≠ some '*') :
    blockTexts (text ++ more) = blockTexts more := by
  apply blockTexts_of_moved text
  apply Text.find?_append_of_eq_none absent
  intro c member
  simp only [openingMark, List.tail_cons, List.mem_cons, List.not_mem_nil, or_false, or_self]
  rintro rfl
  exact outside member

/-- No opening mark begins with a line feed. -/
theorem blockTexts_lineFeed (text : List Char) : blockTexts ('\n' :: text) = blockTexts text :=
  blockTexts_of_moved ['\n'] rfl

/-- The comments of a text in which none is left open, and then those of what follows. -/
theorem blockTexts_append {text : List Char} (settled : Settled text) {more : List Char}
    (outside : more.head? ≠ some '*') :
    blockTexts (text ++ more) = blockTexts text ++ blockTexts more := by
  induction settled with
  | plain absent =>
      rw [blockTexts_append_of_absent absent outside, blockTexts_of_absent absent,
        List.nil_append]
  | @comment text front body inside rest opened closed settled ih =>
      have openedThere : Text.find? openingMark (text ++ more) = some (front, body ++ more) := by
        rw [Text.eq_of_find? opened, List.append_assoc]
        exact Text.find?_of_find? opened _
      have closedThere : Text.find? closingMark (body ++ more) = some (inside, rest ++ more) := by
        rw [Text.eq_of_find? closed, List.append_assoc]
        exact Text.find?_of_find? closed _
      rw [blockTexts_of_closed openedThere closedThere, blockTexts_of_closed opened closed, ih,
        List.cons_append]

/-- Each comment of a text stands in it. -/
theorem infix_of_mem_blockTexts {text block : List Char} (member : block ∈ blockTexts text) :
    block <:+: text := by
  fun_induction blockTexts text with
  | case1 => cases member
  | case2 => cases member
  | case3 text front body opened inside rest closed ih =>
      have whole : text = front ++ (openingMark ++ inside ++ closingMark) ++ rest := by
        rw [Text.eq_of_find? opened, Text.eq_of_find? closed]
        simp only [List.append_assoc]
      rcases List.mem_cons.mp member with rfl | later
      · exact ⟨front, rest, whole.symm⟩
      · rw [whole]
        exact (ih later).trans (List.suffix_append _ rest).isInfix

/-- A text without a closing mark has no comments. -/
theorem blockTexts_of_unclosed {text : List Char}
    (unclosed : Text.find? closingMark text = none) : blockTexts text = [] := by
  cases opened : Text.find? openingMark text with
  | none => exact blockTexts_of_absent opened
  | some cut =>
      obtain ⟨front, body⟩ := cut
      apply blockTexts_of_open opened
      rw [Text.find?_eq_none_iff] at unclosed ⊢
      intro closed
      apply unclosed
      rw [Text.eq_of_find? opened]
      exact closed.trans (List.suffix_append _ body).isInfix

end Borders

section EmptyComment

/-- The opening mark of a plain comment and its closing mark, with nothing between them. -/
def emptyComment : List Char := ['/', '*', '*', '/']

/-- The end of an empty comment is not the end of the comment that it opens. -/
theorem find?_closingMark_slash (text : List Char) :
    Text.find? closingMark ('/' :: text) =
      (Text.find? closingMark text).map fun cut => ('/' :: cut.1, cut.2) :=
  rfl

theorem blockTexts_emptyComment_of_unclosed {text : List Char}
    (unclosed : Text.find? closingMark text = none) : blockTexts (emptyComment ++ text) = [] := by
  apply blockTexts_of_open (Text.find?_append_self openingMark ('/' :: text))
  rw [find?_closingMark_slash, unclosed, Option.map_none]

theorem blockTexts_emptyComment_of_closed {text inside rest : List Char}
    (closed : Text.find? closingMark text = some (inside, rest)) :
    blockTexts (emptyComment ++ text) =
      (emptyComment ++ inside ++ closingMark) :: blockTexts rest := by
  apply blockTexts_of_closed (Text.find?_append_self openingMark ('/' :: text))
  rw [find?_closingMark_slash, closed]
  rfl

/-- An empty comment in a text takes what follows up to the next closing mark for a comment,
and nothing if no closing mark follows.  So it leaves the comments behind it as they are just
when there is no closing mark, unless further empty comments follow. -/
theorem blockTexts_append_emptyComment {front : List Char} (settled : Settled front)
    (text : List Char) :
    (Text.find? ['*', '/'] text = none →
      blockTexts (front ++ emptyComment ++ text) = blockTexts front ∧ blockTexts text = []) ∧
    (∀ inside rest, Text.find? ['*', '/'] text = some (inside, rest) →
      blockTexts (front ++ emptyComment ++ text) =
        blockTexts front ++ (emptyComment ++ inside ++ ['*', '/']) :: blockTexts rest) ∧
    (¬emptyComment <:+: text →
      (blockTexts (front ++ emptyComment ++ text) = blockTexts front ++ blockTexts text ↔
        Text.find? ['*', '/'] text = none)) := by
  have parts : blockTexts (front ++ emptyComment ++ text) =
      blockTexts front ++ blockTexts (emptyComment ++ text) := by
    rw [List.append_assoc]
    exact blockTexts_append settled (by simp [emptyComment])
  rw [parts]
  refine ⟨?_, ?_, ?_⟩
  · intro unclosed
    rw [blockTexts_emptyComment_of_unclosed unclosed, List.append_nil]
    exact ⟨rfl, blockTexts_of_unclosed unclosed⟩
  · intro inside rest closed
    rw [blockTexts_emptyComment_of_closed closed]
    rfl
  · intro none
    rw [List.append_cancel_left_eq]
    constructor
    · intro same
      cases closed : Text.find? closingMark text with
      | none => exact closed
      | some cut =>
          obtain ⟨inside, rest⟩ := cut
          rw [blockTexts_emptyComment_of_closed closed] at same
          have hidden : emptyComment ++ inside ++ closingMark ∈ blockTexts text := by
            rw [← same]
            exact List.mem_cons_self
          rw [List.append_assoc] at hidden
          exact absurd ((List.prefix_append _ _).isInfix.trans (infix_of_mem_blockTexts hidden))
            none
    · intro unclosed
      rw [blockTexts_emptyComment_of_unclosed unclosed, blockTexts_of_unclosed unclosed]

/-- Of the two comments beside an empty one only the first is found. -/
theorem blockTexts_append_emptyComment_between :
    let front := "/** a */\n".toList
    let text := "\n/** b */".toList
    Settled front ∧ Text.find? ['*', '/'] text = some ("\n/** b ".toList, []) ∧
    ¬emptyComment <:+: text ∧
    blockTexts (front ++ emptyComment ++ text) =
      ["/** a */".toList, "/**/\n/** b */".toList] ∧
    blockTexts (front ++ emptyComment ++ text) ≠ blockTexts front ++ blockTexts text := by
  intro front text
  have opened : Text.find? openingMark front = some ([], " a */\n".toList) := by decide
  have closed : Text.find? closingMark " a */\n".toList = some (" a ".toList, ['\n']) := by
    decide
  have blank : Text.find? openingMark ['\n'] = none := by decide
  have settled : Settled front := .comment opened closed (.plain blank)
  have found : Text.find? ['*', '/'] text = some ("\n/** b ".toList, []) := by decide
  have none : ¬emptyComment <:+: text := Text.find?_eq_none_iff.mp (by decide)
  have law := blockTexts_append_emptyComment settled text
  refine ⟨settled, found, none, ?_, ?_⟩
  · rw [law.2.1 _ _ found, blockTexts_of_closed opened closed, blockTexts_of_absent blank,
      blockTexts_nil]
    decide
  · rw [ne_eq, law.2.2 none, found]
    exact nofun

/-- The comment that follows an empty one is not found. -/
theorem blockTexts_emptyComment_ne :
    blockTexts "/**/\n/** a */".toList = ["/**/\n/** a */".toList] ∧
    blockTexts "/** a */".toList = ["/** a */".toList] ∧
    blockTexts "/**/\n/** a */".toList ≠ blockTexts "/** a */".toList := by
  have openedBoth : Text.find? openingMark "/**/\n/** a */".toList =
      some ([], "/\n/** a */".toList) := by decide
  have closedBoth : Text.find? closingMark "/\n/** a */".toList =
      some ("/\n/** a ".toList, []) := by decide
  have openedAlone : Text.find? openingMark "/** a */".toList = some ([], " a */".toList) := by
    decide
  have closedAlone : Text.find? closingMark " a */".toList = some (" a ".toList, []) := by decide
  rw [blockTexts_of_closed openedBoth closedBoth, blockTexts_of_closed openedAlone closedAlone,
    blockTexts_nil]
  decide

end EmptyComment

end Comment

end ApiAssembly
