import ApiAssembly.Proofs.TypeExpr.Reading

/-!
# What the reader rejects

For each function of the reader, all the ways in which it can fail, with the number of tokens
that are left at the place of the failure.  A function fails where a part of it fails, and
where the part that it has read is not followed by the token that it needs.
-/

namespace ApiAssembly.TypeExpr

/-- A function of the reader fails where the given number of tokens is left. -/
def Fails {α : Type} {tokens : List Token} (outcome : Parsed α tokens) (remaining : Nat) : Prop :=
  ∃ error, outcome = .error ⟨remaining, error⟩

@[simp]
theorem fails_ok_iff {α : Type} {tokens : List Token} {remaining : Nat}
    {found : α × { rest : List Token // rest.length < tokens.length }} :
    Fails (.ok found : Parsed α tokens) remaining ↔ False := by
  constructor
  · rintro ⟨_, impossible⟩
    cases impossible
  · exact False.elim

@[simp]
theorem fails_error_iff {α : Type} {tokens : List Token} {failure : GrammarFailure}
    {remaining : Nat} :
    Fails (.error failure : Parsed α tokens) remaining ↔ failure.remaining = remaining := by
  obtain ⟨place, error⟩ := failure
  constructor
  · rintro ⟨_, same⟩
    cases same
    rfl
  · rintro rfl
    exact ⟨error, rfl⟩

@[simp]
theorem fails_failAt_iff {α : Type} {tokens place : List Token} {error : GrammarError}
    {remaining : Nat} :
    Fails (failAt place error : Parsed α tokens) remaining ↔ place.length = remaining :=
  fails_error_iff

variable {tokens inner : List Token} {remaining : Nat}

theorem fails_readUnion_iff :
    Fails (readUnion tokens) remaining ↔ Fails (readIntersection tokens) remaining ∨
      ∃ left inner, Reads (readIntersection tokens) left (.pipe :: inner) ∧
        Fails (readUnion inner) remaining := by
  rw [readUnion]
  cases readIntersection tokens with
  | error failure => simp
  | ok outcome =>
      obtain ⟨left, middle, shorter⟩ := outcome
      cases middle with
      | nil => simp
      | cons token inner =>
          by_cases bar : token = .pipe
          · subst bar
            simp only [take?_cons_self]
            cases second : readUnion inner <;> simp [second, and_assoc]
          · simp [take?_cons_of_ne bar, bar]

theorem fails_readIntersection_iff :
    Fails (readIntersection tokens) remaining ↔ Fails (readOperand tokens) remaining ∨
      ∃ left inner, Reads (readOperand tokens) left (.ampersand :: inner) ∧
        Fails (readIntersection inner) remaining := by
  rw [readIntersection]
  cases readOperand tokens with
  | error failure => simp
  | ok outcome =>
      obtain ⟨left, middle, shorter⟩ := outcome
      cases middle with
      | nil => simp
      | cons token inner =>
          by_cases joined : token = .ampersand
          · subst joined
            simp only [take?_cons_self]
            cases second : readIntersection inner <;> simp [second, and_assoc]
          · simp [take?_cons_of_ne joined, joined]

theorem fails_readOperand_nil_iff : Fails (readOperand []) remaining ↔ 0 = remaining := by
  rw [readOperand]
  exact fails_failAt_iff

theorem fails_readOperand_marked_iff {mark : Mark}
    (operand : mark = .question → startsOperand inner.head? = true) :
    Fails (readOperand (mark.token :: inner)) remaining ↔
      Fails (readOperand inner) remaining := by
  rw [readOperand]
  cases mark with
  | question =>
      rw [if_neg (by simp [Mark.token]), if_neg (by simp [Mark.token]),
        if_pos (by simp [Mark.token, operand rfl])]
      cases readOperand inner <;> simp
  | bang =>
      rw [if_pos (by rfl)]
      cases readOperand inner <;> simp
  | ellipsis =>
      rw [if_neg (by simp [Mark.token]), if_pos (by rfl)]
      cases readOperand inner <;> simp

theorem fails_readOperand_unmarked_iff {token : Token} (unmarked : IsUnmarked token inner) :
    Fails (readOperand (token :: inner)) remaining ↔
      Fails (readPrimary token inner) remaining := by
  obtain ⟨noBang, noEllipsis, noQuestion⟩ := unmarked
  have noOperand : ¬((decide (token = .question) && startsOperand inner.head?) = true) := by
    by_cases question : token = .question <;> simp_all
  rw [readOperand, if_neg noBang, if_neg noEllipsis, if_neg noOperand]
  cases readPrimary token inner <;> simp

theorem fails_readPrimary_word_iff {subject : String} :
    Fails (readPrimary (.word subject) inner) remaining ↔
      ∃ arguments, argumentTokens? inner = some arguments ∧
        Fails (readArguments arguments) remaining := by
  rw [readPrimary]
  split
  · next noArguments => simp [noArguments]
  · next arguments found =>
      cases objects : readArguments arguments <;> simp [found, objects]

theorem fails_readPrimary_parenthesis_iff :
    Fails (readPrimary .leftParenthesis inner) remaining ↔ Fails (readUnion inner) remaining ∨
      ∃ tree place, Reads (readUnion inner) tree place ∧
        place.head? ≠ some .rightParenthesis ∧ place.length = remaining := by
  rw [readPrimary]
  cases readUnion inner with
  | error failure => simp
  | ok outcome =>
      obtain ⟨tree, middle, shorter⟩ := outcome
      rw [exists_reads_ok_iff]
      cases middle with
      | nil => simp
      | cons token after =>
          by_cases closed : token = .rightParenthesis
          · subst closed
            simp only [take?_cons_self]
            simp
          · simp [take?_cons_of_ne closed, closed]

theorem fails_readPrimary_brace_iff :
    Fails (readPrimary .leftBrace inner) remaining ↔ Fails (readEntries inner) remaining := by
  rw [readPrimary]
  cases readEntries inner <;> simp

/-- The ways in which a primary expression is not read, by its first token. -/
theorem fails_readPrimary_cases {token : Token}
    (fails : Fails (readPrimary token inner) remaining) :
    (∃ subject arguments, token = .word subject ∧ argumentTokens? inner = some arguments ∧
        Fails (readArguments arguments) remaining) ∨
      (token = .leftParenthesis ∧ (Fails (readUnion inner) remaining ∨
        ∃ tree place, Reads (readUnion inner) tree place ∧
          place.head? ≠ some .rightParenthesis ∧ place.length = remaining)) ∨
      (token = .leftBrace ∧ Fails (readEntries inner) remaining) ∨
      (remaining = inner.length + 1 ∧
        ∀ other value rest, ¬Reads (readPrimary token other) value rest) := by
  cases token with
  | word subject =>
      obtain ⟨arguments, found, inside⟩ := fails_readPrimary_word_iff.mp fails
      exact .inl ⟨subject, arguments, rfl, found, inside⟩
  | leftParenthesis => exact .inr (.inl ⟨rfl, fails_readPrimary_parenthesis_iff.mp fails⟩)
  | leftBrace => exact .inr (.inr (.inl ⟨rfl, fails_readPrimary_brace_iff.mp fails⟩))
  | number | quoted | star | question =>
      rw [readPrimary, fails_ok_iff] at fails
      exact fails.elim
  | _ =>
      rw [readPrimary, fails_failAt_iff] at fails
      · refine .inr (.inr (.inr ⟨fails.symm, fun other value rest => ?_⟩))
        rw [readPrimary]
        · simp
        all_goals simp
      all_goals simp

theorem fails_readArguments_iff :
    Fails (readArguments tokens) remaining ↔ Fails (readUnion tokens) remaining ∨
      (∃ first inner, Reads (readUnion tokens) first (.comma :: inner) ∧
        Fails (readArguments inner) remaining) ∨
      ∃ first place, Reads (readUnion tokens) first place ∧ place.head? ≠ some .comma ∧
        place.head? ≠ some .greater ∧ place.length = remaining := by
  rw [readArguments]
  cases readUnion tokens with
  | error failure => simp
  | ok outcome =>
      obtain ⟨first, middle, shorter⟩ := outcome
      rw [exists_reads_ok_iff]
      cases middle with
      | nil => simp
      | cons token inner =>
          by_cases more : token = .comma
          · subst more
            simp only [take?_cons_self]
            cases second : readArguments inner <;> simp [second, and_assoc]
          · by_cases closed : token = .greater
            · subst closed
              simp only [take?_cons_self, take?_cons_of_ne more]
              simp
            · simp [take?_cons_of_ne more, take?_cons_of_ne closed, more, closed]

theorem fails_readEntries_key_iff {key : Key} {more : List Token} :
    Fails (readEntries (key.token :: more)) remaining ↔
      (more.head? ≠ some .colon ∧ more.length = remaining) ∨
        ∃ body, more = .colon :: body ∧ (Fails (readUnion body) remaining ∨
          (∃ first inner, Reads (readUnion body) first (.comma :: inner) ∧
            Fails (readEntries inner) remaining) ∨
          ∃ first place, Reads (readUnion body) first place ∧ place.head? ≠ some .comma ∧
            place.head? ≠ some .rightBrace ∧ place.length = remaining) := by
  rw [readEntries, take?_cons_of_ne key.token_ne_rightBrace]
  simp only [recordKey?_token]
  cases more with
  | nil => simp
  | cons separator body =>
      by_cases colon : separator = .colon
      · subst colon
        simp only [take?_cons_self, List.cons.injEq, true_and, exists_eq_left']
        cases readUnion body with
        | error failure => simp
        | ok outcome =>
            obtain ⟨first, middle, shorter⟩ := outcome
            rw [exists_reads_ok_iff]
            cases middle with
            | nil => simp
            | cons token inner =>
                by_cases comma : token = .comma
                · subst comma
                  simp only [take?_cons_self]
                  cases second : readEntries inner <;> simp [second, and_assoc]
                · by_cases brace : token = .rightBrace
                  · subst brace
                    simp only [take?_cons_self, take?_cons_of_ne comma]
                    simp
                  · simp [take?_cons_of_ne comma, take?_cons_of_ne brace, comma, brace]
      · simp [take?_cons_of_ne colon, colon]

/-- The entries of a record are not read where there is neither the end of the record nor a
key, and where something is wrong behind a key. -/
theorem fails_readEntries_cases (fails : Fails (readEntries tokens) remaining) :
    (tokens.length = remaining ∧ tokens.head? ≠ some .rightBrace ∧
        ∀ key : Key, tokens.head? ≠ some key.token) ∨
      ∃ (key : Key) (more : List Token), tokens = key.token :: more := by
  cases tokens with
  | nil =>
      rw [readEntries] at fails
      exact .inl ⟨by simpa [recordKey?] using fails, by simp, by simp⟩
  | cons token more =>
      by_cases isKey : ∃ key : Key, token = key.token
      · obtain ⟨key, rfl⟩ := isKey
        exact .inr ⟨key, more, rfl⟩
      · have noKey : recordKey? (token :: more) = none :=
          recordKey?_eq_none (by simpa using isKey)
        by_cases closed : token = .rightBrace
        · subst closed
          rw [readEntries] at fails
          simp [take?_cons_self] at fails
        · rw [readEntries, take?_cons_of_ne closed] at fails
          refine .inl ⟨by simpa [noKey] using fails, by simpa using closed, fun key same => ?_⟩
          exact isKey ⟨key, Option.some.inj same⟩

end ApiAssembly.TypeExpr
