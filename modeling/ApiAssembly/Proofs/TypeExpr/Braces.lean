import ApiAssembly.Proofs.Comment.Group
import ApiAssembly.Proofs.TypeExpr.RoundTrip

/-!
# Braces in type expressions

Outside of string literals the braces of a type expression enclose its records, so they are
balanced.  A string literal brings in the braces of its contents, and a backslash in front of
a brace changes nothing in that.  The main statement says that the text of a type is balanced
if the contents of each of its string literals are.
-/

namespace ApiAssembly.TypeExpr

open Comment (Balanced closeGroup)

variable {c : Char} {text spelling : List Char} {token : Token} {tokens : List Token}

section Spellings

theorem isDelimiter_brace : isDelimiter '{' = true ∧ isDelimiter '}' = true := by
  decide

theorem balanced_of_not_isDelimiter (solid : ∀ c ∈ text, isDelimiter c = false) :
    Balanced '{' '}' text := by
  apply Comment.balanced_of_not_mem
  · intro member
    exact Bool.false_ne_true ((solid _ member).symm.trans isDelimiter_brace.1)
  · intro member
    exact Bool.false_ne_true ((solid _ member).symm.trans isDelimiter_brace.2)

theorem not_isDelimiter_of_isWordEnd (ends : isWordEnd text = true) :
    ∀ c ∈ text, isDelimiter c = false := by
  induction text with
  | nil => exact List.forall_mem_nil _
  | cons c rest ih =>
      have first : isDelimiter c = false := by
        by_contra delimiter
        have read := isWordEnd_iff.mp ends
        rw [wordRun_cons_of_isDelimiter (by simpa using delimiter)] at read
        cases read
      rw [isWordEnd, Bool.and_eq_true] at ends
      exact List.forall_mem_cons.mpr ⟨first, ih ends.2⟩

theorem not_isDelimiter_of_isWord (word : isWord text = true) :
    ∀ c ∈ text, isDelimiter c = false := by
  cases text with
  | nil => cases word
  | cons c rest =>
      rw [isWord, Bool.and_eq_true] at word
      exact List.forall_mem_cons.mpr ⟨isDelimiter_of_isWordPart (isWordPart_of_isWordStart word.1),
        not_isDelimiter_of_isWordEnd word.2⟩

theorem not_isDelimiter_of_numberRun {previous : Char}
    (alone : numberRun previous text = (text, [])) : ∀ c ∈ text, isDelimiter c = false := by
  induction text generalizing previous with
  | nil => exact List.forall_mem_nil _
  | cons c rest ih =>
      have first : isDelimiter c = false := by
        by_contra delimiter
        rw [numberRun_cons_of_isDelimiter (by simpa using delimiter)] at alone
        cases alone
      exact List.forall_mem_cons.mpr ⟨first, ih (numberRun_cons_alone_iff.mp alone).2⟩

theorem not_isDelimiter_of_beginsNumber {rest : List Char} (begins : beginsNumber c rest = true) :
    isDelimiter c = false := by
  simp only [beginsNumber, Bool.or_eq_true, Bool.and_eq_true, decide_eq_true_eq] at begins
  rcases begins with digit | ⟨rfl | rfl, -⟩
  · exact isDelimiter_of_isWordPart (isWordPart_of_isDigit digit)
  · decide
  · decide

/-- A text and its spelling between quotes leave the same groups open. -/
theorem closeGroup_escapes {quote : Char} {written : List Char} {depth left : Nat}
    (escapes : Escapes quote text written) :
    closeGroup '{' '}' depth written = .error left ↔
      closeGroup '{' '}' depth text = .error left := by
  induction escapes generalizing depth with
  | nil => rfl
  | plain _ _ _ ih =>
      rw [Comment.closeGroup_cons_eq_error_iff, Comment.closeGroup_cons_eq_error_iff, ih]
  | escaped _ ih =>
      have backslash : Comment.depthBehind '{' '}' depth '\\' = depth := by
        simp [Comment.depthBehind]
      rw [Comment.closeGroup_cons_eq_error_iff, backslash, Comment.closeGroup_cons_eq_error_iff,
        ih, Comment.closeGroup_cons_eq_error_iff]
      simp

theorem balanced_quoted {quote : Char} {written : List Char}
    (isQuote : quote = '\'' ∨ quote = '"') (escapes : Escapes quote text written)
    (balanced : Balanced '{' '}' text) : Balanced '{' '}' (quote :: written ++ [quote]) := by
  have distinct : '{' ≠ '}' := by decide
  have mark : Balanced '{' '}' [quote] := by
    rcases isQuote with rfl | rfl
    · decide
    · decide
  have inner : Balanced '{' '}' written := by
    rw [Comment.balanced_iff_closeGroup distinct] at balanced ⊢
    exact (closeGroup_escapes escapes).mpr balanced
  exact (mark.append distinct inner).append distinct mark

def Token.isBrace : Token → Bool
  | .leftBrace | .rightBrace => true
  | _ => false

/-- The braces of the contents are balanced, if the token is a string literal. -/
def Token.HasBalancedContents (token : Token) : Prop :=
  ∀ content, token = .quoted content → Balanced '{' '}' content.toList

theorem balanced_of_spells (spells : Spells token spelling)
    (notBrace : token.isBrace = false)
    (contents : token.HasBalancedContents) : Balanced '{' '}' spelling := by
  cases spells with
  | @punctuation c _ mark =>
      apply Comment.balanced_of_not_mem
      · intro brace
        rw [← List.mem_singleton.mp brace] at mark
        cases mark
        cases notBrace
      · intro brace
        rw [← List.mem_singleton.mp brace] at mark
        cases mark
        cases notBrace
  | dot => decide
  | ellipsis => decide
  | quoted isQuote escapes =>
      have inner := contents _ rfl
      rw [String.toList_ofList] at inner
      exact balanced_quoted isQuote escapes inner
  | number read =>
      obtain ⟨begins, run, alone, -⟩ := firstToken_eq_number_iff.mp read
      obtain ⟨single, whole⟩ := numberRun_alone alone
      rw [List.append_nil] at whole
      rw [← whole] at single
      apply balanced_of_not_isDelimiter
      exact List.forall_mem_cons.mpr
        ⟨not_isDelimiter_of_beginsNumber begins, not_isDelimiter_of_numberRun single⟩
  | word word => exact balanced_of_not_isDelimiter (not_isDelimiter_of_isWord word)

end Spellings

theorem Spells.eq_leftBrace (spells : Spells .leftBrace spelling) : spelling = ['{'] := by
  cases spells with
  | punctuation mark =>
      unfold punctuation? at mark
      split at mark <;> cases mark
      rfl

theorem Spells.eq_rightBrace (spells : Spells .rightBrace spelling) : spelling = ['}'] := by
  cases spells with
  | punctuation mark =>
      unfold punctuation? at mark
      split at mark <;> cases mark
      rfl

section Texts

theorem balanced_blank (blank : Text.isBlank c = true) : Balanced '{' '}' [c] := by
  apply Comment.balanced_of_not_mem
  · rintro member
    rw [← List.mem_singleton.mp member] at blank
    exact absurd blank (by decide)
  · rintro member
    rw [← List.mem_singleton.mp member] at blank
    exact absurd blank (by decide)

/-- Every text of the tokens has balanced braces. -/
def BalancedTexts (tokens : List Token) : Prop :=
  ∀ text, Written tokens text → Balanced '{' '}' text

variable {first second inner : List Token}

theorem exists_written_append (written : Written (first ++ second) text) :
    ∃ front back, text = front ++ back ∧ Written first front ∧ Written second back := by
  generalize whole : first ++ second = tokens at written
  induction written generalizing first with
  | nil =>
      obtain ⟨rfl, rfl⟩ := List.append_eq_nil_iff.mp whole
      exact ⟨[], [], rfl, .nil, .nil⟩
  | @blank c tokens text blank _ ih =>
      obtain ⟨front, back, rfl, early, late⟩ := ih whole
      exact ⟨c :: front, back, rfl, .blank blank early, late⟩
  | @token token tokens spelling text spells behind ih =>
      cases first with
      | nil =>
          rw [List.nil_append] at whole
          subst whole
          exact ⟨[], spelling ++ text, rfl, .nil, .token spells behind⟩
      | cons next first =>
          rw [List.cons_append] at whole
          cases whole
          obtain ⟨front, back, rfl, early, late⟩ := ih rfl
          exact ⟨spelling ++ front, back, by rw [List.append_assoc], .token spells early, late⟩

theorem balancedTexts_append (early : BalancedTexts first) (late : BalancedTexts second) :
    BalancedTexts (first ++ second) := by
  intro text written
  obtain ⟨front, back, rfl, writtenFront, writtenBack⟩ := exists_written_append written
  exact (early front writtenFront).append (by decide) (late back writtenBack)

theorem balancedTexts_nil : BalancedTexts [] := by
  intro text written
  generalize none : ([] : List Token) = tokens at written
  induction written with
  | nil => decide
  | blank blank _ ih => exact (balanced_blank blank).append (by decide) (ih none)
  | token => cases none

/-- A text of one token is a spelling between blanks. -/
theorem exists_spelling_of_written (written : Written [token] text) :
    ∃ front spelling back, text = front ++ (spelling ++ back) ∧ Spells token spelling ∧
      Balanced '{' '}' front ∧ Balanced '{' '}' back := by
  generalize only : [token] = tokens at written
  induction written with
  | nil => cases only
  | @blank c _ _ blank _ ih =>
      obtain ⟨front, spelling, back, rfl, spells, before, behind⟩ := ih only
      exact ⟨c :: front, spelling, back, rfl, spells,
        (balanced_blank blank).append (by decide) before, behind⟩
  | @token _ _ spelling text spells behind =>
      cases only
      exact ⟨[], spelling, text, rfl, spells, by decide, balancedTexts_nil text behind⟩

theorem balancedTexts_singleton (notBrace : token.isBrace = false)
    (contents : token.HasBalancedContents) : BalancedTexts [token] := by
  intro text written
  obtain ⟨front, spelling, back, rfl, spells, before, behind⟩ := exists_spelling_of_written written
  have middle := balanced_of_spells spells notBrace contents
  exact before.append (by decide) (middle.append (by decide) behind)

theorem balancedTexts_cons (notBrace : token.isBrace = false)
    (contents : token.HasBalancedContents) (behind : BalancedTexts tokens) :
    BalancedTexts (token :: tokens) :=
  balancedTexts_append (balancedTexts_singleton notBrace contents) behind

/-- Braces around tokens with balanced texts. -/
theorem balancedTexts_record (balanced : BalancedTexts inner) :
    BalancedTexts (.leftBrace :: inner ++ [.rightBrace]) := by
  have distinct : '{' ≠ '}' := by decide
  intro text written
  obtain ⟨start, close, rfl, writtenStart, writtenClose⟩ := exists_written_append written
  obtain ⟨opening, middle, rfl, writtenOpening, writtenMiddle⟩ :=
    @exists_written_append _ [.leftBrace] _ writtenStart
  obtain ⟨before, left, afterLeft, rfl, spellsLeft, balancedBefore, balancedAfterLeft⟩ :=
    exists_spelling_of_written writtenOpening
  obtain ⟨beforeRight, right, behind, rfl, spellsRight, balancedBeforeRight, balancedBehind⟩ :=
    exists_spelling_of_written writtenClose
  rw [spellsLeft.eq_leftBrace, spellsRight.eq_rightBrace]
  have inside := (balancedAfterLeft.append distinct (balanced middle writtenMiddle)).append
    distinct balancedBeforeRight
  have whole := (balancedBefore.append distinct (inside.group distinct)).append distinct
    balancedBehind
  simpa using whole

end Texts

section Derivations

/-- The braces of the contents are balanced in each of the string literals. -/
def BalancedLiterals (tokens : List Token) : Prop :=
  ∀ token ∈ tokens, token.HasBalancedContents

variable {first second : List Token}

theorem balancedLiterals_append :
    BalancedLiterals (first ++ second) ↔ BalancedLiterals first ∧ BalancedLiterals second :=
  List.forall_mem_append

theorem balancedLiterals_cons :
    BalancedLiterals (token :: tokens) ↔ token.HasBalancedContents ∧ BalancedLiterals tokens :=
  List.forall_mem_cons

/-- Tokens that are no braces have balanced texts. -/
theorem balancedTexts_of_forall (noBrace : ∀ token ∈ tokens, token.isBrace = false)
    (literals : BalancedLiterals tokens) : BalancedTexts tokens := by
  induction tokens with
  | nil => exact balancedTexts_nil
  | cons token tokens ih =>
      rw [balancedLiterals_cons] at literals
      rw [List.forall_mem_cons] at noBrace
      exact balancedTexts_cons noBrace.1 literals.1 (ih noBrace.2 literals.2)

theorem Key.isBrace_token (key : Key) : key.token.isBrace = false := by
  cases key with
  | _ => rfl

theorem Mark.isBrace_token (mark : Mark) : mark.token.isBrace = false := by
  cases mark with
  | _ => rfl

theorem Atom.isBrace_token (atom : Atom) : atom.token.isBrace = false := by
  cases atom with
  | _ => rfl

theorem Suffix.isBrace_tokens (suffix : Suffix) :
    ∀ token ∈ suffix.tokens, token.isBrace = false := by
  cases suffix with
  | _ => decide

mutual

/-- A derivation is written in balanced texts, if its string literals are balanced. -/
theorem UnionSyntax.balancedTexts (found : UnionSyntax)
    (literals : BalancedLiterals found.tokens) : BalancedTexts found.tokens := by
  match found with
  | .single only => exact only.balancedTexts literals
  | .alternatives left right =>
      rw [UnionSyntax.tokens, balancedLiterals_append, balancedLiterals_cons] at literals
      exact balancedTexts_append (left.balancedTexts literals.1)
        (balancedTexts_cons rfl literals.2.1 (right.balancedTexts literals.2.2))

theorem IntersectionSyntax.balancedTexts (found : IntersectionSyntax)
    (literals : BalancedLiterals found.tokens) : BalancedTexts found.tokens := by
  match found with
  | .single only => exact only.balancedTexts literals
  | .both left right =>
      rw [IntersectionSyntax.tokens, balancedLiterals_append, balancedLiterals_cons] at literals
      exact balancedTexts_append (left.balancedTexts literals.1)
        (balancedTexts_cons rfl literals.2.1 (right.balancedTexts literals.2.2))

theorem OperandSyntax.balancedTexts (found : OperandSyntax)
    (literals : BalancedLiterals found.tokens) : BalancedTexts found.tokens := by
  match found with
  | .marked mark inner =>
      rw [OperandSyntax.tokens, balancedLiterals_cons] at literals
      exact balancedTexts_cons mark.isBrace_token literals.1 (inner.balancedTexts literals.2)
  | .suffixed primary marks =>
      rw [OperandSyntax.tokens, balancedLiterals_append] at literals
      refine balancedTexts_append (primary.balancedTexts literals.1)
        (balancedTexts_of_forall ?_ literals.2)
      intro token member
      obtain ⟨suffix, -, inSuffix⟩ := List.mem_flatMap.mp member
      exact suffix.isBrace_tokens token inSuffix

theorem PrimarySyntax.balancedTexts (found : PrimarySyntax)
    (literals : BalancedLiterals found.tokens) : BalancedTexts found.tokens := by
  match found with
  | .atom atom =>
      exact balancedTexts_singleton atom.isBrace_token (literals _ (List.mem_singleton_self _))
  | .generic subject dotted arguments =>
      rw [PrimarySyntax.tokens, balancedLiterals_append, balancedLiterals_append] at literals
      obtain ⟨⟨nameLiterals, openLiterals⟩, closeLiterals⟩ := literals
      obtain ⟨lessContents, argumentLiterals⟩ := balancedLiterals_cons.mp openLiterals
      have name : BalancedTexts (.word subject :: if dotted then [.dot] else []) := by
        apply balancedTexts_of_forall _ nameLiterals
        cases dotted with
        | _ => simp [Token.isBrace]
      have opened := balancedTexts_cons rfl lessContents (arguments.balancedTexts argumentLiterals)
      exact balancedTexts_append (balancedTexts_append name opened)
        (balancedTexts_singleton rfl (closeLiterals _ (List.mem_singleton_self _)))
  | .parenthesis inner =>
      rw [PrimarySyntax.tokens, List.cons_append, balancedLiterals_cons,
        balancedLiterals_append] at literals
      exact balancedTexts_cons rfl literals.1
        (balancedTexts_append (inner.balancedTexts literals.2.1)
          (balancedTexts_singleton rfl (literals.2.2 _ (List.mem_singleton_self _))))
  | .record entries =>
      rw [PrimarySyntax.tokens, List.cons_append, balancedLiterals_cons,
        balancedLiterals_append] at literals
      exact balancedTexts_record (entries.balancedTexts literals.2.1)

theorem ArgumentsSyntax.balancedTexts (found : ArgumentsSyntax)
    (literals : BalancedLiterals found.tokens) : BalancedTexts found.tokens := by
  match found with
  | .last argument => exact argument.balancedTexts literals
  | .more argument others =>
      rw [ArgumentsSyntax.tokens, balancedLiterals_append, balancedLiterals_cons] at literals
      exact balancedTexts_append (argument.balancedTexts literals.1)
        (balancedTexts_cons rfl literals.2.1 (others.balancedTexts literals.2.2))

theorem EntriesSyntax.balancedTexts (found : EntriesSyntax)
    (literals : BalancedLiterals found.tokens) : BalancedTexts found.tokens := by
  match found with
  | .none => exact balancedTexts_nil
  | .last key value =>
      rw [EntriesSyntax.tokens, balancedLiterals_cons, balancedLiterals_cons] at literals
      exact balancedTexts_cons key.isBrace_token literals.1
        (balancedTexts_cons rfl literals.2.1 (value.balancedTexts literals.2.2))
  | .more key value others =>
      rw [EntriesSyntax.tokens, balancedLiterals_append, balancedLiterals_cons,
        balancedLiterals_cons, balancedLiterals_cons] at literals
      obtain ⟨⟨keyContents, colonContents, valueLiterals⟩, commaContents, otherLiterals⟩ := literals
      have entry := balancedTexts_cons key.isBrace_token keyContents
        (balancedTexts_cons rfl colonContents (value.balancedTexts valueLiterals))
      exact balancedTexts_append entry
        (balancedTexts_cons rfl commaContents (others.balancedTexts otherLiterals))

end

/-- The contents of the string literals in the text of a type. -/
def literals (text : List Char) : List String :=
  match TypeExpr.tokens text with
  | .ok located => located.filterMap fun (_, token) =>
      match token with
      | .quoted content => some content
      | _ => none
  | .error _ => []

/-- The text of a type is balanced if the contents of its string literals are. -/
theorem balanced_of_parse {text : String} {tree : TypeExpr} (parsed : parse text = .ok tree)
    (balanced : ∀ content ∈ literals text.toList, Balanced '{' '}' content.toList) :
    Balanced '{' '}' text.toList := by
  rw [parse] at parsed
  rw [literals] at balanced
  split at parsed
  · cases parsed
  next located cut =>
    rw [cut] at balanced
    split at parsed
    · cases parsed
    next read =>
      obtain ⟨found, same, -⟩ := readTokens_eq_ok_iff_exists.mp read
      have contents : BalancedLiterals found.tokens := by
        rintro token member content rfl
        rw [same, List.mem_map] at member
        obtain ⟨⟨offset, token⟩, inText, quoted⟩ := member
        cases quoted
        exact balanced content (List.mem_filterMap.mpr ⟨_, inText, rfl⟩)
      have written := written_of_tokensWithin cut
      rw [← same] at written
      exact found.balancedTexts contents text.toList written

end Derivations

end ApiAssembly.TypeExpr
