import ApiAssembly.Proofs.TypeExpr.Syntax

/-!
# What the reader accepts

For each function of the reader, all the ways in which it can succeed.  Soundness and
completeness are proved from these statements alone.
-/

namespace ApiAssembly.TypeExpr

/-- A function of the reader yields a value and leaves the given tokens over. -/
def Reads {α : Type} {tokens : List Token} (outcome : Parsed α tokens) (value : α)
    (rest : List Token) : Prop :=
  ∃ shorter, outcome = .ok (value, ⟨rest, shorter⟩)

@[simp]
theorem reads_error_iff {α : Type} {tokens rest : List Token} {failure : GrammarFailure}
    {value : α} : Reads (.error failure : Parsed α tokens) value rest ↔ False := by
  constructor
  · rintro ⟨_, impossible⟩
    cases impossible
  · exact False.elim

@[simp]
theorem reads_failAt_iff {α : Type} {tokens place rest : List Token} {error : GrammarError}
    {value : α} : Reads (failAt place error : Parsed α tokens) value rest ↔ False :=
  reads_error_iff

@[simp]
theorem reads_ok_iff {α : Type} {tokens rest : List Token} {found value : α}
    {left : { rest : List Token // rest.length < tokens.length }} :
    Reads (.ok (found, left) : Parsed α tokens) value rest ↔
      found = value ∧ left.val = rest := by
  obtain ⟨left, shorter⟩ := left
  constructor
  · rintro ⟨_, same⟩
    cases same
    exact ⟨rfl, rfl⟩
  · rintro ⟨rfl, rfl⟩
    exact ⟨shorter, rfl⟩

/-- What holds of some outcome of a success holds of its only one. -/
theorem exists_reads_ok_iff {α : Type} {tokens : List Token} {found : α}
    {left : { rest : List Token // rest.length < tokens.length }}
    {holds : α → List Token → Prop} :
    (∃ value rest, Reads (.ok (found, left) : Parsed α tokens) value rest ∧
      holds value rest) ↔ holds found left.val := by
  constructor
  · rintro ⟨value, rest, reads, held⟩
    obtain ⟨rfl, rfl⟩ := reads_ok_iff.mp reads
    exact held
  · intro held
    exact ⟨found, left.val, reads_ok_iff.mpr ⟨rfl, rfl⟩, held⟩

@[simp]
theorem exists_value_reads_ok_iff {α : Type} {tokens rest : List Token} {found : α}
    {left : { rest : List Token // rest.length < tokens.length }} {holds : α → Prop} :
    (∃ value, Reads (.ok (found, left) : Parsed α tokens) value rest ∧ holds value) ↔
      holds found ∧ left.val = rest := by
  constructor
  · rintro ⟨value, reads, held⟩
    obtain ⟨rfl, same⟩ := reads_ok_iff.mp reads
    exact ⟨held, same⟩
  · rintro ⟨held, same⟩
    exact ⟨found, reads_ok_iff.mpr ⟨rfl, same⟩, held⟩

theorem Reads.length_lt {α : Type} {tokens rest : List Token} {outcome : Parsed α tokens}
    {value : α} (reads : Reads outcome value rest) : rest.length < tokens.length :=
  reads.1

theorem Reads.unique {α : Type} {tokens rest otherRest : List Token}
    {outcome : Parsed α tokens} {value other : α} (first : Reads outcome value rest)
    (second : Reads outcome other otherRest) : value = other ∧ rest = otherRest := by
  obtain ⟨_, rfl⟩ := first
  obtain ⟨_, same⟩ := second
  cases same
  exact ⟨rfl, rfl⟩

@[simp]
theorem take?_nil (demanded : Token) : take? demanded [] = none := rfl

theorem take?_cons_self (demanded : Token) (rest : List Token) :
    take? demanded (demanded :: rest) = some ⟨rest, Nat.lt_succ_self _⟩ := by
  simp [take?]

theorem take?_cons_of_ne {demanded token : Token} (different : token ≠ demanded)
    (rest : List Token) : take? demanded (token :: rest) = none := by
  simp [take?, different]

theorem reads_readUnion_iff {tokens rest : List Token} {value : TypeExpr} :
    Reads (readUnion tokens) value rest ↔
      ∃ left middle, Reads (readIntersection tokens) left middle ∧
        ((middle.head? ≠ some .pipe ∧ left = value ∧ middle = rest) ∨
          ∃ inner, middle = .pipe :: inner ∧
            ∃ right, Reads (readUnion inner) right rest ∧ .union left right = value) := by
  rw [readUnion]
  cases readIntersection tokens with
  | error failure => simp
  | ok outcome =>
      obtain ⟨left, middle, shorter⟩ := outcome
      rw [exists_reads_ok_iff]
      cases middle with
      | nil => simp
      | cons token inner =>
          by_cases bar : token = .pipe
          · subst bar
            simp only [take?_cons_self]
            cases second : readUnion inner <;> simp [second]
          · simp [take?_cons_of_ne bar, bar]

theorem reads_readIntersection_iff {tokens rest : List Token} {value : TypeExpr} :
    Reads (readIntersection tokens) value rest ↔
      ∃ left middle, Reads (readOperand tokens) left middle ∧
        ((middle.head? ≠ some .ampersand ∧ left = value ∧ middle = rest) ∨
          ∃ inner, middle = .ampersand :: inner ∧
            ∃ right, Reads (readIntersection inner) right rest ∧
              .intersection left right = value) := by
  rw [readIntersection]
  cases readOperand tokens with
  | error failure => simp
  | ok outcome =>
      obtain ⟨left, middle, shorter⟩ := outcome
      rw [exists_reads_ok_iff]
      cases middle with
      | nil => simp
      | cons token inner =>
          by_cases joined : token = .ampersand
          · subst joined
            simp only [take?_cons_self]
            cases second : readIntersection inner <;> simp [second]
          · simp [take?_cons_of_ne joined, joined]

theorem reads_readArguments_iff {tokens rest : List Token} {values : List TypeExpr} :
    Reads (readArguments tokens) values rest ↔
      ∃ first middle, Reads (readUnion tokens) first middle ∧
        ((middle = .greater :: rest ∧ [first] = values) ∨
          ∃ inner, middle = .comma :: inner ∧
            ∃ others, Reads (readArguments inner) others rest ∧ first :: others = values) := by
  rw [readArguments]
  cases readUnion tokens with
  | error failure => simp
  | ok outcome =>
      obtain ⟨first, middle, shorter⟩ := outcome
      rw [exists_reads_ok_iff]
      cases middle with
      | nil => simp
      | cons token inner =>
          by_cases more : token = .comma
          · subst more
            simp only [take?_cons_self]
            cases second : readArguments inner <;> simp [second]
          · by_cases closed : token = .greater
            · subst closed
              simp only [take?_cons_self, take?_cons_of_ne more]
              simp [and_comm]
            · simp [take?_cons_of_ne more, take?_cons_of_ne closed, more, closed]

theorem recordKey?_token (key : Key) (rest : List Token) :
    recordKey? (key.token :: rest) = some (key.name, ⟨rest, Nat.lt_succ_self _⟩) := by
  cases key <;> rfl

theorem recordKey?_eq_none {tokens : List Token}
    (noKey : ∀ (key : Key) (rest : List Token), tokens ≠ key.token :: rest) :
    recordKey? tokens = none := by
  unfold recordKey?
  split
  · exact absurd rfl (noKey (.word _) _)
  · exact absurd rfl (noKey (.quoted _) _)
  · rfl

theorem Key.token_injective : Function.Injective Key.token := by
  intro first second same
  cases first <;> cases second <;> cases same <;> rfl

theorem exists_key_iff {key : Key} {more : List Token} {holds : Key → List Token → Prop} :
    (∃ (other : Key) (body : List Token), key.token :: more = other.token :: .colon :: body ∧
      holds other body) ↔ ∃ body, more = .colon :: body ∧ holds key body := by
  constructor
  · rintro ⟨other, body, same, held⟩
    rw [List.cons.injEq] at same
    obtain rfl := Key.token_injective same.1
    exact ⟨body, same.2, held⟩
  · rintro ⟨body, rfl, held⟩
    exact ⟨key, body, rfl, held⟩

theorem Key.token_ne_rightBrace (key : Key) : key.token ≠ .rightBrace := by
  cases key <;> simp [Key.token]

theorem reads_readEntries_key_iff {key : Key} {more rest : List Token}
    {values : List (String × TypeExpr)} :
    Reads (readEntries (key.token :: more)) values rest ↔
      ∃ body, more = .colon :: body ∧ ∃ first middle, Reads (readUnion body) first middle ∧
        ((middle = .rightBrace :: rest ∧ [(key.name, first)] = values) ∨
          ∃ inner, middle = .comma :: inner ∧
            ∃ others, Reads (readEntries inner) others rest ∧
              (key.name, first) :: others = values) := by
  rw [readEntries, take?_cons_of_ne key.token_ne_rightBrace]
  simp only [recordKey?_token]
  cases more with
  | nil => simp
  | cons separator body =>
      by_cases colon : separator = .colon
      · subst colon
        simp only [take?_cons_self, List.cons.injEq, true_and, exists_eq_left']
        cases readUnion body with
        | error failure => simp
        | ok outcome =>
            obtain ⟨first, middle, shorter⟩ := outcome
            rw [exists_reads_ok_iff]
            cases middle with
            | nil => simp
            | cons token inner =>
                by_cases comma : token = .comma
                · subst comma
                  simp only [take?_cons_self]
                  cases second : readEntries inner <;> simp [second]
                · by_cases brace : token = .rightBrace
                  · subst brace
                    simp only [take?_cons_self, take?_cons_of_ne comma]
                    simp [and_comm]
                  · simp [take?_cons_of_ne comma, take?_cons_of_ne brace, comma, brace]
      · simp [take?_cons_of_ne colon, colon]

theorem reads_readEntries_iff {tokens rest : List Token} {values : List (String × TypeExpr)} :
    Reads (readEntries tokens) values rest ↔
      (tokens = .rightBrace :: rest ∧ [] = values) ∨
        ∃ (key : Key) (body : List Token), tokens = key.token :: .colon :: body ∧
          ∃ first middle, Reads (readUnion body) first middle ∧
            ((middle = .rightBrace :: rest ∧ [(key.name, first)] = values) ∨
              ∃ inner, middle = .comma :: inner ∧
                ∃ others, Reads (readEntries inner) others rest ∧
                  (key.name, first) :: others = values) := by
  cases tokens with
  | nil =>
      rw [readEntries]
      simp [recordKey?]
  | cons token more =>
      by_cases closed : token = .rightBrace
      · subst closed
        have noKey := fun key : Key => key.token_ne_rightBrace.symm
        rw [readEntries]
        simp only [take?_cons_self]
        simp [noKey, and_comm]
      · by_cases isKey : ∃ key : Key, token = key.token
        · obtain ⟨key, rfl⟩ := isKey
          rw [exists_key_iff, reads_readEntries_key_iff]
          simp [closed]
        · have noKey : recordKey? (token :: more) = none :=
            recordKey?_eq_none (by simpa using isKey)
          rw [readEntries, take?_cons_of_ne closed]
          simp [noKey, closed, not_exists.mp isKey]

theorem reads_readPrimary_word_iff {subject : String} {inner rest : List Token}
    {value : TypeExpr} :
    Reads (readPrimary (.word subject) inner) value rest ↔
      (argumentTokens? inner = none ∧ .name subject = value ∧ inner = rest) ∨
        ∃ arguments, argumentTokens? inner = some arguments ∧
          ∃ objects, Reads (readArguments arguments) objects rest ∧
            .generic subject objects = value := by
  rw [readPrimary]
  split
  · next noArguments => simp [noArguments]
  · next arguments found =>
      cases objects : readArguments arguments <;> simp [found, objects]

theorem reads_readPrimary_parenthesis_iff {inner rest : List Token} {value : TypeExpr} :
    Reads (readPrimary .leftParenthesis inner) value rest ↔
      ∃ tree, Reads (readUnion inner) tree (.rightParenthesis :: rest) ∧
        .parenthesis tree = value := by
  rw [readPrimary]
  cases readUnion inner with
  | error failure => simp
  | ok outcome =>
      obtain ⟨tree, middle, shorter⟩ := outcome
      rw [exists_value_reads_ok_iff]
      cases middle with
      | nil => simp
      | cons token after =>
          by_cases closed : token = .rightParenthesis
          · subst closed
            simp only [take?_cons_self]
            simp
          · simp [take?_cons_of_ne closed, closed]

theorem reads_readPrimary_brace_iff {inner rest : List Token} {value : TypeExpr} :
    Reads (readPrimary .leftBrace inner) value rest ↔
      ∃ entries, Reads (readEntries inner) entries rest ∧ .record entries = value := by
  rw [readPrimary]
  cases readEntries inner <;> simp

/-- The ways to read a primary expression, by its first token. -/
theorem reads_readPrimary_cases {token : Token} {inner rest : List Token} {value : TypeExpr}
    (reads : Reads (readPrimary token inner) value rest) :
    (∃ atom : Atom, token = atom.token ∧ value = atom.tree ∧ rest = inner) ∨
      (∃ subject arguments objects, token = .word subject ∧
        argumentTokens? inner = some arguments ∧
          Reads (readArguments arguments) objects rest ∧ value = .generic subject objects) ∨
      (∃ tree, token = .leftParenthesis ∧
        Reads (readUnion inner) tree (.rightParenthesis :: rest) ∧ value = .parenthesis tree) ∨
      (∃ entries, token = .leftBrace ∧ Reads (readEntries inner) entries rest ∧
        value = .record entries) := by
  cases token with
  | word subject =>
      rcases reads_readPrimary_word_iff.mp reads with ⟨-, rfl, rfl⟩ | ⟨arguments, found, more⟩
      · exact .inl ⟨.word subject, rfl, rfl, rfl⟩
      · obtain ⟨objects, inside, rfl⟩ := more
        exact .inr (.inl ⟨subject, arguments, objects, rfl, found, inside, rfl⟩)
  | leftParenthesis =>
      obtain ⟨tree, inside, rfl⟩ := reads_readPrimary_parenthesis_iff.mp reads
      exact .inr (.inr (.inl ⟨tree, rfl, inside, rfl⟩))
  | leftBrace =>
      obtain ⟨entries, inside, rfl⟩ := reads_readPrimary_brace_iff.mp reads
      exact .inr (.inr (.inr ⟨entries, rfl, inside, rfl⟩))
  | number number =>
      rw [readPrimary, reads_ok_iff] at reads
      exact .inl ⟨.number number, rfl, reads.1.symm, reads.2.symm⟩
  | quoted text =>
      rw [readPrimary, reads_ok_iff] at reads
      exact .inl ⟨.quoted text, rfl, reads.1.symm, reads.2.symm⟩
  | star =>
      rw [readPrimary, reads_ok_iff] at reads
      exact .inl ⟨.star, rfl, reads.1.symm, reads.2.symm⟩
  | question =>
      rw [readPrimary, reads_ok_iff] at reads
      exact .inl ⟨.question, rfl, reads.1.symm, reads.2.symm⟩
  | _ =>
      rw [readPrimary] at reads
      · simp at reads
      all_goals simp

theorem reads_readPrimary_atom {atom : Atom} {rest : List Token}
    (alone : argumentTokens? rest = none) :
    Reads (readPrimary atom.token rest) atom.tree rest := by
  cases atom with
  | word subject => exact reads_readPrimary_word_iff.mpr (.inl ⟨alone, rfl, rfl⟩)
  | _ =>
      rw [Atom.token, readPrimary, reads_ok_iff]
      exact ⟨rfl, rfl⟩

theorem reads_readOperand_marked_iff {mark : Mark} {inner rest : List Token}
    {value : TypeExpr} (operand : mark = .question → startsOperand inner.head? = true) :
    Reads (readOperand (mark.token :: inner)) value rest ↔
      ∃ tree, Reads (readOperand inner) tree rest ∧ mark.apply tree = value := by
  rw [readOperand]
  cases mark with
  | question =>
      rw [if_neg (by simp [Mark.token]), if_neg (by simp [Mark.token]),
        if_pos (by simp [Mark.token, operand rfl])]
      cases readOperand inner <;> simp [Mark.apply]
  | bang =>
      rw [if_pos (by rfl)]
      cases readOperand inner <;> simp [Mark.apply]
  | ellipsis =>
      rw [if_neg (by simp [Mark.token]), if_pos (by rfl)]
      cases readOperand inner <;> simp [Mark.apply]

/-- A token is not a mark in front of what follows it. -/
def IsUnmarked (token : Token) (inner : List Token) : Prop :=
  token ≠ .bang ∧ token ≠ .ellipsis ∧ (token = .question → startsOperand inner.head? = false)

theorem reads_readOperand_unmarked_iff {token : Token} {inner rest : List Token}
    {value : TypeExpr} (unmarked : IsUnmarked token inner) :
    Reads (readOperand (token :: inner)) value rest ↔
      ∃ node middle, Reads (readPrimary token inner) node middle ∧
        suffixes node middle = (value, rest) := by
  obtain ⟨noBang, noEllipsis, noQuestion⟩ := unmarked
  have noOperand : ¬((decide (token = .question) && startsOperand inner.head?) = true) := by
    by_cases question : token = .question <;> simp_all
  rw [readOperand, if_neg noBang, if_neg noEllipsis, if_neg noOperand]
  cases readPrimary token inner with
  | error failure => simp
  | ok outcome =>
      obtain ⟨node, middle, shorter⟩ := outcome
      rw [exists_reads_ok_iff, reads_ok_iff, Prod.ext_iff]

theorem mark_or_isUnmarked (token : Token) (inner : List Token) :
    (∃ mark : Mark, token = mark.token ∧
        (mark = .question → startsOperand inner.head? = true)) ∨
      IsUnmarked token inner := by
  by_cases bang : token = .bang
  · exact .inl ⟨.bang, bang, by simp⟩
  by_cases ellipsis : token = .ellipsis
  · exact .inl ⟨.ellipsis, ellipsis, by simp⟩
  by_cases question : token = .question
  · cases operand : startsOperand inner.head? with
    | true => exact .inl ⟨.question, question, by simp⟩
    | false => exact .inr ⟨bang, ellipsis, fun _ => operand⟩
  · exact .inr ⟨bang, ellipsis, fun same => absurd same question⟩

theorem not_reads_readOperand_nil {rest : List Token} {value : TypeExpr} :
    ¬Reads (readOperand []) value rest := by
  rw [readOperand]
  simp

end ApiAssembly.TypeExpr
