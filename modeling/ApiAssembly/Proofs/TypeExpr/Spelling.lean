import ApiAssembly.Proofs.TypeExpr.Run

/-!
# Spellings of tokens

The texts that a token can be written as, whatever stands behind them.  The main statement
is that a token is read from each of its spellings in front of every text that does not go
on with it, and from these only.
-/

namespace ApiAssembly.TypeExpr

open Decimal (Binary64)

/-- Whether characters can end a word: letters, digits, `_` and `$`, and a dot directly in
front of a character with which a word could begin. -/
def isWordEnd : List Char → Bool
  | [] => true
  | c :: rest => (isWordPart c || (c = '.' && rest.head?.any isWordStart)) && isWordEnd rest

/-- Whether a text is a word. -/
def isWord : List Char → Bool
  | [] => false
  | c :: rest => isWordStart c && isWordEnd rest

/-- The ways to write a text between quotes: any character may have a backslash in front,
and the quote and the backslash have one. -/
inductive Escapes (quote : Char) : List Char → List Char → Prop
  | nil : Escapes quote [] []
  | plain {c : Char} {text written : List Char} :
      c ≠ quote → c ≠ '\\' → Escapes quote text written →
        Escapes quote (c :: text) (c :: written)
  | escaped {c : Char} {text written : List Char} :
      Escapes quote text written → Escapes quote (c :: text) ('\\' :: c :: written)

/-- The spellings of a token. -/
inductive Spells : Token → List Char → Prop
  | punctuation {c : Char} {token : Token} :
      punctuation? c = some token → Spells token [c]
  | dot : Spells .dot ['.']
  | ellipsis : Spells .ellipsis ['.', '.', '.']
  | quoted {quote : Char} {text written : List Char} :
      quote = '\'' ∨ quote = '"' → Escapes quote text written →
        Spells (.quoted (String.ofList text)) (quote :: written ++ [quote])
  | number {c : Char} {rest : List Char} {value : Binary64} :
      firstToken c rest = .ok (.number value, []) → Spells (.number value) (c :: rest)
  | word {name : List Char} : isWord name = true → Spells (.word (String.ofList name)) name

/-- The texts that do not go on with a token in front of them. -/
def Ends : Token → List Char → Prop
  | .word _, text => wordRun text = ([], text)
  | .number _, text => ∀ previous, numberRun previous text = ([], text)
  | .dot, text => text.head? ≠ some '.'
  | _, _ => True

variable {c quote : Char} {text written rest after : List Char} {token : Token}
  {value : Binary64}

theorem isWordEnd_iff : isWordEnd text = true ↔ wordRun text = (text, []) := by
  induction text with
  | nil => simp [isWordEnd, wordRun]
  | cons c rest ih =>
      rw [isWordEnd, Bool.and_eq_true, wordRun]
      split
      next continues => simp [continues, ih, Prod.ext_iff]
      next stops => simp [stops]

theorem quotedRun_of_escapes (escapes : Escapes quote text written) (ordinary : quote ≠ '\\')
    (after : List Char) : quotedRun quote (written ++ quote :: after) = some (text, after) := by
  induction escapes with
  | nil =>
      rw [List.nil_append, quotedRun, if_pos rfl]
      · intro single
        exact absurd single ordinary
      · intro c more pair
        exact absurd pair ordinary
  | plain notQuote notBackslash _ ih =>
      rw [List.cons_append, quotedRun, if_neg notQuote, ih]
      · rfl
      · intro single
        exact absurd single notBackslash
      · intro c more pair
        exact absurd pair notBackslash
  | escaped _ ih =>
      rw [List.cons_append, List.cons_append, quotedRun, ih]
      rfl

theorem exists_escapes_of_quotedRun (read : quotedRun quote written = some (text, after)) :
    ∃ escaped, Escapes quote text escaped ∧ written = escaped ++ quote :: after := by
  fun_induction quotedRun quote written generalizing text after with
  | case1 => cases read
  | case2 => cases read
  | case3 c rest ih =>
      obtain ⟨⟨inner, behind⟩, found, same⟩ := Option.map_eq_some_iff.mp read
      cases same
      obtain ⟨escaped, escapes, rfl⟩ := ih found
      exact ⟨'\\' :: c :: escaped, .escaped escapes, rfl⟩
  | case4 rest =>
      cases read
      exact ⟨[], .nil, rfl⟩
  | case5 c rest single pair notQuote ih =>
      obtain ⟨⟨inner, behind⟩, found, same⟩ := Option.map_eq_some_iff.mp read
      cases same
      obtain ⟨escaped, escapes, rfl⟩ := ih found
      refine ⟨c :: escaped, .plain notQuote ?_ escapes, rfl⟩
      rintro rfl
      cases escaped with
      | nil => exact pair _ _ rfl rfl
      | cons next more => exact pair _ _ rfl rfl

theorem punctuation?_of_isWordPart (part : isWordPart c = true) : punctuation? c = none := by
  cases mark : punctuation? c with
  | none => rfl
  | some token =>
      have delimiter := isDelimiter_of_punctuation? mark
      rw [isDelimiter_of_isWordPart part] at delimiter
      cases delimiter

/-- A character that begins a word or a number begins no other token. -/
theorem separate_of_isWordPart (part : isWordPart c = true) :
    punctuation? c = none ∧ c ≠ '.' ∧ ¬(c = '\'' || c = '"') = true := by
  refine ⟨punctuation?_of_isWordPart part, ?_, ?_⟩
  · rintro rfl
    revert part
    decide
  · rw [Bool.or_eq_true, decide_eq_true_eq, decide_eq_true_eq]
    rintro (rfl | rfl)
    · revert part
      decide
    · revert part
      decide

theorem separate_of_beginsNumber (begins : beginsNumber c rest = true) :
    punctuation? c = none ∧ c ≠ '.' ∧ ¬(c = '\'' || c = '"') = true := by
  simp only [beginsNumber, Bool.or_eq_true, Bool.and_eq_true, decide_eq_true_eq] at begins
  rcases begins with digit | ⟨rfl | rfl, -⟩
  · exact separate_of_isWordPart (isWordPart_of_isDigit digit)
  · decide
  · decide

theorem not_beginsNumber_of_isWordStart (start : isWordStart c = true) (rest : List Char) :
    beginsNumber c rest = false := by
  have notDigit : c.isDigit = false := by
    cases digit : c.isDigit with
    | false => rfl
    | true => rw [not_isWordStart_of_isDigit digit] at start; cases start
  have notSign : ¬(c = '-' ∨ c = '+') := by
    rintro (rfl | rfl)
    · revert start
      decide
    · revert start
      decide
  simp [beginsNumber, notDigit, notSign]

theorem firstToken_of_isWordStart (start : isWordStart c = true) :
    firstToken c rest =
      .ok (.word (String.ofList (c :: (wordRun rest).1)), (wordRun rest).2) := by
  obtain ⟨noMark, notDot, notQuote⟩ := separate_of_isWordPart (isWordPart_of_isWordStart start)
  have noNumber := not_beginsNumber_of_isWordStart start rest
  rw [beginsNumber, Bool.eq_false_iff] at noNumber
  unfold firstToken
  simp only [noMark, if_neg notDot, if_neg notQuote, if_neg noNumber, if_pos start]

theorem firstToken_of_beginsNumber {run : List Char} (begins : beginsNumber c rest = true)
    (read : numberRun c rest = (run, after)) : firstToken c rest =
      (Decimal.readLiteral? (c :: run)).elim
        (.error (.invalidNumber (String.ofList (c :: run))))
        fun value => .ok (.number value, after) := by
  obtain ⟨noMark, notDot, notQuote⟩ := separate_of_beginsNumber begins
  rw [beginsNumber] at begins
  unfold firstToken
  simp only [noMark, if_neg notDot, if_neg notQuote, if_pos begins, read]
  cases Decimal.readLiteral? (c :: run) <;> rfl

theorem firstToken_eq_number_iff :
    firstToken c rest = .ok (.number value, after) ↔ beginsNumber c rest = true ∧
      ∃ run, numberRun c rest = (run, after) ∧
        Decimal.readLiteral? (c :: run) = some value := by
  constructor
  · intro found
    unfold firstToken at found
    split at found
    next mark =>
      cases found
      exact absurd mark (by unfold punctuation?; split <;> simp)
    split at found
    · split at found <;> cases found
    split at found
    · split at found <;> cases found
    split at found
    next begins =>
      dsimp only at found
      split at found
      next number same => cases found; exact ⟨begins, _, rfl, same⟩
      · cases found
    split at found <;> cases found
  · rintro ⟨begins, run, read, literal⟩
    rw [firstToken_of_beginsNumber begins read, literal]
    rfl

theorem firstToken_of_isBlank (blank : Text.isBlank c = true) :
    firstToken c rest = .error (.unexpectedCharacter c) := by
  have tabulated : (Text.rangeCharacters Text.blankRanges).all (fun c =>
      punctuation? c = none && c ≠ '.' && !(c = '\'' || c = '"') && !c.isDigit &&
        !(c = '-' || c = '+') && !isWordStart c) = true := by
    decide +kernel
  have beginsNothing := List.all_eq_true.mp tabulated c (Text.mem_rangeCharacters blank)
  simp only [Bool.and_eq_true, Bool.not_eq_true', decide_eq_true_eq] at beginsNothing
  obtain ⟨⟨⟨⟨⟨noMark, notDot⟩, notQuote⟩, notDigit⟩, notSign⟩, notStart⟩ := beginsNothing
  unfold firstToken
  simp only [noMark, if_neg notDot, notQuote, notDigit, notSign, notStart, Bool.false_or,
    Bool.false_and, Bool.false_eq_true, if_false]

@[simp] theorem ends_nil (token : Token) : Ends token [] := by
  cases token <;> simp [Ends, wordRun, numberRun]

theorem ends_cons_of_isDelimiter (delimiter : isDelimiter c = true) (token : Token)
    (rest : List Char) : Ends token (c :: rest) := by
  cases token with
  | word name => exact wordRun_cons_of_isDelimiter delimiter rest
  | number value => exact fun previous => numberRun_cons_of_isDelimiter delimiter previous rest
  | dot =>
      rintro ⟨⟩
      revert delimiter
      decide
  | _ => trivial

theorem beginsNumber_append (begins : beginsNumber c rest = true) (after : List Char) :
    beginsNumber c (rest ++ after) = true := by
  cases rest with
  | nil =>
      have digit : c.isDigit = true := by simpa [beginsNumber] using begins
      simp [beginsNumber, digit]
  | cons next more => exact begins

/-- The digit behind a sign belongs to the number. -/
theorem beginsNumber_of_numberRun {run : List Char} (begins : beginsNumber c rest = true)
    (read : numberRun c rest = (run, after)) : beginsNumber c run = true := by
  cases rest with
  | nil =>
      cases read
      exact begins
  | cons next more =>
      cases digit : c.isDigit with
      | true => simp [beginsNumber, digit]
      | false =>
          have behind : next.isDigit = true := by
            simp only [beginsNumber, digit, Bool.false_or, Bool.and_eq_true] at begins
            exact begins.2
          rw [numberRun, if_pos (by simp [behind])] at read
          cases read
          exact begins

theorem firstToken_of_escapes (isQuote : quote = '\'' ∨ quote = '"')
    (escapes : Escapes quote text written) (after : List Char) :
    firstToken quote (written ++ quote :: after) =
      .ok (.quoted (String.ofList text), after) := by
  have ordinary : punctuation? quote = none ∧ quote ≠ '.' ∧ quote ≠ '\\' := by
    rcases isQuote with rfl | rfl
    · decide
    · decide
  have read := quotedRun_of_escapes escapes ordinary.2.2 after
  simp [firstToken, ordinary, isQuote, read]

theorem firstToken_append_of_number (alone : firstToken c rest = .ok (.number value, []))
    (ends : Ends (.number value) after) :
    firstToken c (rest ++ after) = .ok (.number value, after) := by
  obtain ⟨begins, run, read, literal⟩ := firstToken_eq_number_iff.mp alone
  rw [numberRun_eq_runWhile] at read
  obtain ⟨single, whole⟩ := runWhile_alone looksAhead_continuesNumber read
  rw [List.append_nil] at whole
  subst whole
  refine firstToken_eq_number_iff.mpr ⟨beginsNumber_append begins after, rest, ?_, literal⟩
  rw [numberRun_eq_runWhile]
  refine runWhile_append looksAhead_continuesNumber single fun previous => ?_
  rw [← numberRun_eq_runWhile]
  exact ends previous

theorem firstToken_of_isWord (isWord : isWord (c :: rest) = true)
    (ends : wordRun after = ([], after)) :
    firstToken c (rest ++ after) = .ok (.word (String.ofList (c :: rest)), after) := by
  rw [TypeExpr.isWord, Bool.and_eq_true, isWordEnd_iff, wordRun_eq_runWhile c] at isWord
  have read : wordRun (rest ++ after) = (rest, after) := by
    rw [wordRun_eq_runWhile c]
    refine runWhile_append looksAhead_continuesWord isWord.2 fun previous => ?_
    rw [← wordRun_eq_runWhile]
    exact ends
  rw [firstToken_of_isWordStart isWord.1, read]

/-- A spelling is read as its token in front of every text that does not go on with it. -/
theorem Spells.firstToken {spelling : List Char} (spells : Spells token spelling) :
    ∃ c rest, spelling = c :: rest ∧ ∀ after, Ends token after →
      TypeExpr.firstToken c (rest ++ after) = .ok (token, after) := by
  cases spells with
  | @punctuation c _ mark =>
      refine ⟨c, [], rfl, fun after _ => ?_⟩
      simp [TypeExpr.firstToken, mark]
  | dot =>
      refine ⟨'.', [], rfl, fun after ends => ?_⟩
      cases after with
      | nil => rfl
      | cons next more =>
          have notDot : next ≠ '.' := fun same => ends (congrArg some same)
          simp [TypeExpr.firstToken, punctuation?, notDot]
  | ellipsis => exact ⟨'.', ['.', '.'], rfl, fun after _ => rfl⟩
  | @quoted quote text written isQuote escapes =>
      refine ⟨quote, written ++ [quote], rfl, fun after _ => ?_⟩
      rw [List.append_assoc, List.singleton_append]
      exact firstToken_of_escapes isQuote escapes after
  | @number c rest value alone =>
      exact ⟨c, rest, rfl, fun after ends => firstToken_append_of_number alone ends⟩
  | word isWord =>
      cases spelling with
      | nil => cases isWord
      | cons c rest => exact ⟨c, rest, rfl, fun after ends => firstToken_of_isWord isWord ends⟩

theorem exists_spelling_of_isWordStart (start : isWordStart c = true)
    (found : firstToken c rest = .ok (token, after)) :
    ∃ spelling, Spells token spelling ∧ c :: rest = spelling ++ after := by
  rw [firstToken_of_isWordStart start] at found
  cases found
  obtain ⟨run, behind, read⟩ : ∃ run behind, wordRun rest = (run, behind) := ⟨_, _, rfl⟩
  have parts := runWhile_alone looksAhead_continuesWord
    ((wordRun_eq_runWhile c rest).symm.trans read)
  rw [← wordRun_eq_runWhile, ← isWordEnd_iff] at parts
  rw [read]
  refine ⟨c :: run, .word ?_, by rw [parts.2, List.cons_append]⟩
  rw [isWord, start, parts.1, Bool.and_true]

theorem exists_spelling_of_number (found : firstToken c rest = .ok (.number value, after)) :
    ∃ spelling, Spells (.number value) spelling ∧ c :: rest = spelling ++ after := by
  obtain ⟨begins, run, read, literal⟩ := firstToken_eq_number_iff.mp found
  obtain ⟨alone, whole⟩ := numberRun_alone read
  refine ⟨c :: run, .number ?_, by rw [whole, List.cons_append]⟩
  exact firstToken_eq_number_iff.mpr
    ⟨beginsNumber_of_numberRun begins read, run, alone, literal⟩

/-- What is read as a token is a spelling of it. -/
theorem exists_spelling_of_firstToken (found : firstToken c rest = .ok (token, after)) :
    ∃ spelling, Spells token spelling ∧ c :: rest = spelling ++ after := by
  by_cases start : isWordStart c = true
  · exact exists_spelling_of_isWordStart start found
  by_cases number : ∃ value, token = .number value
  · obtain ⟨value, rfl⟩ := number
    exact exists_spelling_of_number found
  unfold firstToken at found
  split at found
  next mark =>
    cases found
    exact ⟨[c], .punctuation mark, rfl⟩
  split at found
  next isDot =>
    subst isDot
    split at found
    · cases found
      exact ⟨['.', '.', '.'], .ellipsis, rfl⟩
    · cases found
      exact ⟨['.'], .dot, rfl⟩
  split at found
  next isQuote =>
    split at found
    next text behind read =>
      cases found
      obtain ⟨escaped, escapes, rfl⟩ := exists_escapes_of_quotedRun read
      refine ⟨c :: escaped ++ [c], .quoted (by simpa using isQuote) escapes, ?_⟩
      rw [List.cons_append, List.cons_append, List.append_assoc, List.singleton_append]
    · cases found
  split at found
  · dsimp only at found
    split at found
    · cases found
      exact absurd ⟨_, rfl⟩ number
    · cases found
  · cases found

end ApiAssembly.TypeExpr
