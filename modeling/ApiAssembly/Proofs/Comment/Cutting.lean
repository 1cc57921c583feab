import ApiAssembly.Proofs.Comment.Locality
import Mathlib.Data.List.Infix

/-!
# How a text is cut into comments

A text is what stands between its comments and the comments themselves, in turn.  Each comment
begins at the first opening mark that is left and ends at the first closing mark behind it, and
there is no comment in what is left at the end.  The main statement says that there is just one
way to cut a text like this, that the comments of the text are those of the cut, and that they
are a matter of the text alone, whatever stands on the lines below, just when no opening mark
is left behind the last comment.
-/

namespace ApiAssembly.Comment

/-- The text begins with an opening mark and ends with a closing mark behind it. -/
structure IsMarked (text : List Char) : Prop where
  opens : ['/', '*', '*'] <+: text
  closes : ['*', '/'] <:+ text
  long : 5 ≤ text.length

/-- A comment ends as early as it can. -/
structure IsComment (block : List Char) : Prop where
  marked : IsMarked block
  shortest : ∀ front, front <+: block → IsMarked front → front = block

/-- A comment with what stands between it and the comment in front of it. -/
structure Cut where
  gap : List Char
  block : List Char

def Cut.text (cut : Cut) : List Char :=
  cut.gap ++ cut.block

/-- The text is cut into comments, with what stands in front of each, and what is left. -/
structure CutsInto (text : List Char) (cuts : List Cut) (left : List Char) : Prop where
  whole : text = cuts.flatMap Cut.text ++ left
  comment : ∀ cut ∈ cuts, IsComment cut.block
  /-- No opening mark begins in front of a comment. -/
  first : ∀ cut ∈ cuts, ∀ front, front ++ ['/', '*', '*'] <+: cut.text →
    cut.gap.length ≤ front.length
  /-- No opening mark that is left has a closing mark behind it. -/
  unclosed : ∀ behind, ['/', '*', '*'] ++ behind <:+ left → ¬['*', '/'] <:+: behind

/-- Every opening mark of the text has a closing mark behind it. -/
def AllClosed (text : List Char) : Prop :=
  ∀ behind, ['/', '*', '*'] ++ behind <:+ text → ['*', '/'] <:+: behind

section Decidability

/-- What stands behind the opening marks of a text. -/
def behindMarks (text : List Char) : List (List Char) :=
  text.tails.filterMap (Text.after? openingMark)

theorem mem_behindMarks {text behind : List Char} :
    behind ∈ behindMarks text ↔ openingMark ++ behind <:+ text := by
  rw [behindMarks, List.mem_filterMap]
  constructor
  · rintro ⟨tail, member, begins⟩
    rwa [← Text.after?_eq_some_iff.mp begins, ← List.mem_tails]
  · intro suffix
    exact ⟨_, (List.mem_tails _ _).mpr suffix, Text.after?_append_self openingMark behind⟩

instance : DecidablePred AllClosed := fun text =>
  decidable_of_iff (∀ behind ∈ behindMarks text, closingMark <:+: behind)
    (forall_congr' fun _ => imp_congr_left mem_behindMarks)

instance : DecidablePred IsMarked := fun text =>
  decidable_of_iff (openingMark <+: text ∧ closingMark <:+ text ∧ 5 ≤ text.length)
    ⟨fun ⟨opens, closes, long⟩ => ⟨opens, closes, long⟩,
      fun ⟨opens, closes, long⟩ => ⟨opens, closes, long⟩⟩

instance : DecidablePred IsComment := fun block =>
  decidable_of_iff (IsMarked block ∧ ∀ front ∈ block.inits, IsMarked front → front = block)
    ⟨fun ⟨marked, shortest⟩ => ⟨marked, fun front begins =>
        shortest front ((List.mem_inits front block).mpr begins)⟩,
      fun ⟨marked, shortest⟩ => ⟨marked, fun front member =>
        shortest front ((List.mem_inits front block).mp member)⟩⟩

instance (text : List Char) (cuts : List Cut) (left : List Char) :
    Decidable (CutsInto text cuts left) :=
  decidable_of_iff
    (text = cuts.flatMap Cut.text ++ left ∧ (∀ cut ∈ cuts, IsComment cut.block) ∧
      (∀ cut ∈ cuts, ∀ front ∈ cut.text.inits, front ++ openingMark <+: cut.text →
        cut.gap.length ≤ front.length) ∧
      ∀ behind ∈ behindMarks left, ¬closingMark <:+: behind)
    ⟨fun ⟨whole, comment, first, unclosed⟩ => ⟨whole, comment,
        fun cut member front begins => first cut member front
          ((List.mem_inits front cut.text).mpr ((List.prefix_append _ _).trans begins)) begins,
        fun behind suffix => unclosed behind (mem_behindMarks.mpr suffix)⟩,
      fun ⟨whole, comment, first, unclosed⟩ => ⟨whole, comment,
        fun cut member front _ => first cut member front,
        fun behind member => unclosed behind (mem_behindMarks.mp member)⟩⟩

end Decidability

section Marks

theorem isMarked_iff {text : List Char} :
    IsMarked text ↔ ∃ inside, text = openingMark ++ inside ++ closingMark := by
  constructor
  · rintro ⟨⟨body, rfl⟩, closes, long⟩
    have short : closingMark.length ≤ body.length := by
      simp only [List.length_append, closingMark, List.length_cons, List.length_nil] at long ⊢
      omega
    obtain ⟨inside, rfl⟩ := List.suffix_of_suffix_length_le closes
      (List.suffix_append openingMark body) short
    exact ⟨inside, (List.append_assoc _ _ _).symm⟩
  · rintro ⟨inside, rfl⟩
    refine ⟨?_, List.suffix_append _ _, ?_⟩
    · rw [List.append_assoc]
      exact List.prefix_append _ _
    · simp [openingMark, closingMark]

/-- A comment goes up to the first closing mark, whatever stands behind it. -/
theorem IsComment.exists_inside {block : List Char} (comment : IsComment block) :
    ∃ inside, block = openingMark ++ inside ++ closingMark ∧
      ∀ rest, Text.find? closingMark (inside ++ closingMark ++ rest) = some (inside, rest) := by
  obtain ⟨inside, rfl⟩ := isMarked_iff.mp comment.marked
  have alone : Text.find? closingMark (inside ++ closingMark) = some (inside, []) := by
    rw [Text.find?_eq_some_iff]
    refine ⟨(List.append_nil _).symm, fun other begins => ?_⟩
    have shorter := comment.shortest (openingMark ++ other ++ closingMark)
      (by simpa only [List.append_assoc] using List.prefix_append_right_inj _ |>.mpr begins)
      (isMarked_iff.mpr ⟨other, rfl⟩)
    simp only [List.append_assoc, List.append_cancel_left_eq, List.append_cancel_right_eq]
      at shorter
    rw [shorter]
  exact ⟨inside, rfl, fun rest => Text.find?_of_find? alone rest⟩

/-- What is found up to the first closing mark is a comment. -/
theorem isComment_of_find? {body inside rest : List Char}
    (closed : Text.find? closingMark body = some (inside, rest)) :
    IsComment (openingMark ++ inside ++ closingMark) := by
  refine ⟨isMarked_iff.mpr ⟨inside, rfl⟩, fun front begins marked => ?_⟩
  obtain ⟨other, rfl⟩ := isMarked_iff.mp marked
  have whole := Text.eq_of_find? closed
  have within : other ++ closingMark <+: inside ++ closingMark := by
    rw [List.append_assoc, List.append_assoc] at begins
    exact (List.prefix_append_right_inj openingMark).mp begins
  have later : inside.length ≤ other.length :=
    Text.length_le_of_find? closed (within.trans ⟨rest, whole.symm⟩)
  have same : other ++ closingMark = inside ++ closingMark := by
    apply within.eq_of_length_le
    simp only [List.length_append]
    omega
  rw [List.append_assoc, same, List.append_assoc]

/-- If the first opening mark is not closed, none is. -/
theorem not_closed_of_find? {text front body : List Char}
    (opened : Text.find? openingMark text = some (front, body))
    (absent : Text.find? closingMark body = none) {behind : List Char}
    (later : openingMark ++ behind <:+ text) : ¬closingMark <:+: behind := by
  intro closed
  refine absurd ?_ (Text.find?_eq_none_iff.mp absent)
  obtain ⟨other, whole⟩ := later
  have begins : other ++ openingMark <+: text := ⟨behind, by rw [← whole, List.append_assoc]⟩
  have order := Text.length_le_of_find? opened begins
  have parts := Text.eq_of_find? opened
  have behindEnds : behind <:+ text :=
    ⟨other ++ openingMark, by rw [← whole, List.append_assoc]⟩
  have bodyEnds : body <:+ text := ⟨front ++ openingMark, parts.symm⟩
  have shorter : behind <:+ body := by
    apply List.suffix_of_suffix_length_le behindEnds bodyEnds
    have lengths := congrArg List.length (whole.trans parts)
    simp only [List.length_append] at lengths
    omega
  exact closed.trans shorter.isInfix

end Marks

section Cuts

variable {text left : List Char} {cuts : List Cut}

/-- There is no comment in a text without a closing mark behind its opening marks. -/
theorem blockTexts_of_forall
    (unclosed : ∀ behind, openingMark ++ behind <:+ text → ¬closingMark <:+: behind) :
    blockTexts text = [] := by
  cases opened : Text.find? openingMark text with
  | none => exact blockTexts_of_absent opened
  | some cut =>
      obtain ⟨front, body⟩ := cut
      refine blockTexts_of_open opened (Text.find?_eq_none_iff.mpr (unclosed body ?_))
      exact ⟨front, by rw [← List.append_assoc, ← Text.eq_of_find? opened]⟩

/-- The first comment of a cut is the one that is found first. -/
theorem CutsInto.find? {cut : Cut} (into : CutsInto text (cut :: cuts) left) :
    ∃ inside rest, Text.find? openingMark text = some (cut.gap, inside ++ closingMark ++ rest) ∧
      Text.find? closingMark (inside ++ closingMark ++ rest) = some (inside, rest) ∧
      cut.block = openingMark ++ inside ++ closingMark ∧ CutsInto rest cuts left := by
  obtain ⟨inside, block, closed⟩ := (into.comment cut (by simp)).exists_inside
  let rest := cuts.flatMap Cut.text ++ left
  have parts : text = cut.text ++ rest := by
    rw [into.whole, List.flatMap_cons, List.append_assoc]
  refine ⟨inside, rest, ?_, closed rest, block, rfl, ?_, ?_, into.unclosed⟩
  · rw [Text.find?_eq_some_iff]
    refine ⟨by simp only [parts, Cut.text, block, List.append_assoc], fun other begins => ?_⟩
    by_contra early
    refine early (into.first cut (by simp) other ?_)
    apply List.prefix_of_prefix_length_le begins ⟨rest, parts.symm⟩
    simp only [Cut.text, block, openingMark, List.length_append, List.length_cons,
      List.length_nil] at early ⊢
    omega
  · exact fun other member => into.comment other (by simp [member])
  · exact fun other member => into.first other (by simp [member])

theorem exists_cutsInto (text : List Char) :
    ∃ cuts left, CutsInto text cuts left ∧ blockTexts text = cuts.map Cut.block := by
  fun_induction blockTexts text with
  | case1 text absent =>
      refine ⟨[], text, ⟨rfl, by simp, by simp, fun behind suffix => ?_⟩, rfl⟩
      refine absurd ?_ (Text.find?_eq_none_iff.mp absent)
      exact (List.prefix_append _ _).isInfix.trans suffix.isInfix
  | case2 text front body opened absent =>
      exact ⟨[], text, ⟨rfl, by simp, by simp, fun _ => not_closed_of_find? opened absent⟩, rfl⟩
  | case3 text front body opened inside rest closed ih =>
      obtain ⟨cuts, left, into, blocks⟩ := ih
      let block := openingMark ++ inside ++ closingMark
      refine ⟨⟨front, block⟩ :: cuts, left, ⟨?_, ?_, ?_, into.unclosed⟩, ?_⟩
      · rw [List.flatMap_cons, List.append_assoc, ← into.whole, Text.eq_of_find? opened,
          Text.eq_of_find? closed]
        simp only [Cut.text, block, List.append_assoc]
      · exact List.forall_mem_cons.mpr ⟨isComment_of_find? closed, into.comment⟩
      · refine List.forall_mem_cons.mpr ⟨fun other begins => ?_, into.first⟩
        apply Text.length_le_of_find? opened (begins.trans ⟨rest, ?_⟩)
        rw [Text.eq_of_find? opened, Text.eq_of_find? closed]
        simp only [Cut.text, block, List.append_assoc]
      · rw [List.map_cons, ← blocks]

/-- There is one way to cut a text. -/
theorem CutsInto.unique {other : List Cut} {rest : List Char} (into : CutsInto text cuts left)
    (intoOther : CutsInto text other rest) : other = cuts ∧ rest = left := by
  induction cuts generalizing text other with
  | nil =>
      have nothing := blockTexts_of_forall into.unclosed
      cases other with
      | nil => exact ⟨rfl, by rw [into.whole] at intoOther; exact intoOther.whole.symm⟩
      | cons cut other =>
          obtain ⟨inside, behind, opened, closed, -, -⟩ := intoOther.find?
          rw [into.whole, List.flatMap_nil, List.nil_append] at opened
          rw [blockTexts_of_closed opened closed] at nothing
          cases nothing
  | cons cut cuts ih =>
      obtain ⟨inside, behind, opened, closed, block, later⟩ := into.find?
      cases other with
      | nil =>
          have nothing := blockTexts_of_forall intoOther.unclosed
          rw [intoOther.whole, List.flatMap_nil, List.nil_append] at opened
          rw [blockTexts_of_closed opened closed] at nothing
          cases nothing
      | cons first other =>
          obtain ⟨inner, after, found, ended, same, further⟩ := intoOther.find?
          rw [opened, Option.some.injEq, Prod.mk.injEq] at found
          rw [← found.2, closed, Option.some.injEq, Prod.mk.injEq] at ended
          obtain ⟨rfl, rfl⟩ := ended
          obtain ⟨rfl, rfl⟩ := ih later further
          refine ⟨?_, rfl⟩
          rw [List.cons.injEq]
          exact ⟨by cases first; cases cut; simp_all, rfl⟩

/-- The comments of a text stay as they are, whatever stands behind it, and what is left may
begin another one. -/
theorem CutsInto.blockTexts_append (into : CutsInto text cuts left) (more : List Char) :
    blockTexts (text ++ more) = cuts.map Cut.block ++ blockTexts (left ++ more) := by
  induction cuts generalizing text with
  | nil =>
      rw [into.whole]
      rfl
  | cons cut cuts ih =>
      obtain ⟨inside, rest, opened, closed, block, later⟩ := into.find?
      have openedThere : Text.find? openingMark (text ++ more) =
          some (cut.gap, inside ++ closingMark ++ rest ++ more) := by
        rw [Text.eq_of_find? opened, List.append_assoc]
        exact Text.find?_of_find? opened _
      have closedThere : Text.find? closingMark (inside ++ closingMark ++ rest ++ more) =
          some (inside, rest ++ more) := by
        rw [List.append_assoc (inside ++ closingMark)]
        exact Text.find?_of_find? closed _
      rw [blockTexts_of_closed openedThere closedThere, ih later, List.map_cons, block,
        List.cons_append]

/-- If no opening mark is left, the comments on the lines below are those that they have
alone. -/
theorem CutsInto.blockTexts_append_lineFeed (into : CutsInto text cuts left)
    (absent : ¬openingMark <:+: left) (more : List Char) :
    blockTexts (text ++ '\n' :: more) = cuts.map Cut.block ++ blockTexts more := by
  have outside : ('\n' :: more).head? ≠ some '*' := by simp
  rw [into.blockTexts_append,
    blockTexts_append_of_absent (Text.find?_eq_none_iff.mpr absent) outside,
    blockTexts_lineFeed]

/-- An opening mark that is left begins a comment where a closing mark follows. -/
theorem CutsInto.blockTexts_append_closingMark (into : CutsInto text cuts left)
    (present : openingMark <:+: left) :
    ∃ block, blockTexts (text ++ '\n' :: closingMark) = cuts.map Cut.block ++ [block] := by
  cases opened : Text.find? openingMark left with
  | none => exact absurd present (Text.find?_eq_none_iff.mp opened)
  | some cut =>
      obtain ⟨front, body⟩ := cut
      have begins : openingMark ++ body <:+ left :=
        ⟨front, by rw [← List.append_assoc, ← Text.eq_of_find? opened]⟩
      have openedThere : Text.find? openingMark (left ++ '\n' :: closingMark) =
          some (front, body ++ '\n' :: closingMark) := by
        rw [Text.eq_of_find? opened, List.append_assoc]
        exact Text.find?_of_find? opened _
      have closedThere : Text.find? closingMark (body ++ '\n' :: closingMark) =
          some (body ++ ['\n'], []) := by
        have outside : ∀ c ∈ ('\n' :: closingMark).head?, c ∉ closingMark.tail := by
          simp [closingMark]
        have unclosed : Text.find? closingMark body = none :=
          Text.find?_eq_none_iff.mpr (into.unclosed body begins)
        rw [Text.find?_append_of_eq_none unclosed outside]
        rfl
      refine ⟨openingMark ++ (body ++ ['\n']) ++ closingMark, ?_⟩
      rw [into.blockTexts_append, blockTexts_of_closed openedThere closedThere, blockTexts_nil]

/-- No opening mark is left in a text of which all are closed. -/
theorem CutsInto.not_infix_of_allClosed (into : CutsInto text cuts left)
    (closed : AllClosed text) : ¬openingMark <:+: left := by
  rintro ⟨front, behind, whole⟩
  have inside : openingMark ++ behind <:+ left :=
    ⟨front, by rw [← List.append_assoc, whole]⟩
  have suffix : left <:+ text := ⟨_, into.whole.symm⟩
  exact into.unclosed behind inside (closed behind (inside.trans suffix))

end Cuts

/-- A text can be cut in one way, and its comments are those of the cut.  The comments of a text
in which every opening mark is closed are its own, whatever follows on the lines below; this is
so just when no opening mark is left behind the last comment. -/
theorem blockTexts_eq_map_cuts (text : List Char) :
    ∃ cuts left, CutsInto text cuts left ∧ blockTexts text = cuts.map Cut.block ∧
      (∀ other rest, CutsInto text other rest → other = cuts ∧ rest = left) ∧
      (AllClosed text → ∀ more,
        blockTexts (text ++ '\n' :: more) = blockTexts text ++ blockTexts more) ∧
      ((∀ more, blockTexts (text ++ '\n' :: more) = blockTexts text ++ blockTexts more) ↔
        ¬['/', '*', '*'] <:+: left) := by
  obtain ⟨cuts, left, into, blocks⟩ := exists_cutsInto text
  have behind : ¬openingMark <:+: left → ∀ more,
      blockTexts (text ++ '\n' :: more) = blockTexts text ++ blockTexts more := by
    intro absent more
    rw [into.blockTexts_append_lineFeed absent, blocks]
  refine ⟨cuts, left, into, blocks, fun _ _ => into.unique, ?_, ?_, behind⟩
  · intro closed
    exact behind (into.not_infix_of_allClosed closed)
  · intro same present
    obtain ⟨block, begun⟩ := into.blockTexts_append_closingMark present
    have nothing : blockTexts closingMark = [] := blockTexts_of_absent (by decide)
    rw [same, blocks, nothing, List.append_cancel_left_eq] at begun
    cases begun

/-- A text in which marks overlap: the closing mark of a comment could begin a comment of its
own, and so could the star and slash in front of it. -/
def overlappingText : List Char :=
  "a*/***/**b*/".toList

/-- The comment of the overlapping text is found in one place, and the comment below it too. -/
theorem blockTexts_overlappingText :
    AllClosed overlappingText ∧
    CutsInto overlappingText [⟨"a*".toList, "/***/".toList⟩] "**b*/".toList ∧
    blockTexts overlappingText = ["/***/".toList] ∧
    blockTexts (overlappingText ++ "\n/** c */".toList) =
      ["/***/".toList, "/** c */".toList] := by
  have closed : AllClosed overlappingText := by decide
  have into : CutsInto overlappingText [⟨"a*".toList, "/***/".toList⟩] "**b*/".toList := by
    decide
  have intoBelow : CutsInto "/** c */".toList [⟨[], "/** c */".toList⟩] [] := by decide
  obtain ⟨cuts, left, -, blocks, unique, below, -⟩ := blockTexts_eq_map_cuts overlappingText
  obtain ⟨others, rest, -, blocksBelow, uniqueBelow, -⟩ :=
    blockTexts_eq_map_cuts "/** c */".toList
  obtain ⟨rfl, -⟩ := unique _ _ into
  obtain ⟨rfl, -⟩ := uniqueBelow _ _ intoBelow
  refine ⟨closed, into, blocks, ?_⟩
  have law := below closed "/** c */".toList
  rw [blocks, blocksBelow] at law
  exact law

end ApiAssembly.Comment
