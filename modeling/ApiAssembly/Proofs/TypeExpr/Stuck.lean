import ApiAssembly.Proofs.TypeExpr.Failing
import ApiAssembly.Proofs.TypeExpr.Lookahead
import ApiAssembly.Proofs.TypeExpr.Unambiguous

/-!
# Where the reader gets stuck

Where a function of the reader fails, the tokens in front of the place of the failure begin
something that the grammar writes, and with no tokens that look like those from the place on
do they make up something that the function reads.  The main statement is about a whole list
of tokens.
-/

namespace ApiAssembly.TypeExpr

/-- A reader reads something off the front of some tokens. -/
def Accepts {α : Type} (reader : (tokens : List Token) → Parsed α tokens)
    (tokens : List Token) : Prop :=
  ∃ value rest, Reads (reader tokens) value rest

/-- A reader gets stuck where the given number of tokens is left.  The tokens in front of this
place begin something that is written, and the tokens from there on are to blame. -/
def StuckAt {α Derivation : Type} (reader : (tokens : List Token) → Parsed α tokens)
    (written : Derivation → List Token) (tokens : List Token) (remaining : Nat) : Prop :=
  ∃ front place, front ++ place = tokens ∧ place.length = remaining ∧
    (∃ found more, written found = front ++ more) ∧
    ∀ other, LooksLike place other → ¬Accepts reader (front ++ other)

section

variable {α β Part Whole : Type} {partReader : (tokens : List Token) → Parsed α tokens}
  {reader : (tokens : List Token) → Parsed β tokens} {partWritten : Part → List Token}
  {written : Whole → List Token} {tokens rest : List Token} {value : α} {remaining : Nat}

/-- A reader gets stuck where it has to read a part and gets stuck in it. -/
theorem StuckAt.behind (stuck : StuckAt partReader partWritten tokens remaining)
    (lead : List Token)
    (within : ∀ part, ∃ whole more, written whole = lead ++ (partWritten part ++ more))
    (leads : ∀ other, LooksLike tokens other → Accepts reader (lead ++ other) →
      Accepts partReader other) :
    StuckAt reader written (lead ++ tokens) remaining := by
  obtain ⟨front, place, rfl, left, ⟨part, more, begun⟩, blamed⟩ := stuck
  obtain ⟨whole, behind, wholly⟩ := within part
  refine ⟨lead ++ front, place, List.append_assoc .., left, ⟨whole, more ++ behind, ?_⟩,
    fun other looks accepted => ?_⟩
  · rw [wholly, begun]
    simp only [List.append_assoc]
  · rw [List.append_assoc] at accepted
    exact blamed other looks (leads _ (looks.append front) accepted)

/-- A part that has been read ends at the same place when other tokens that look alike stand
behind it. -/
theorem ReadsBefore.eq_rest {part other middle : List Token} {again : α}
    (before : ReadsBefore partReader tokens value rest) (same : part ++ rest = tokens)
    (looks : LooksLike rest other) (reads : Reads (partReader (part ++ other)) again middle) :
    middle = other := by
  obtain ⟨front, whole, readsAgain⟩ := before
  obtain rfl := List.append_cancel_right (same.trans whole.symm)
  exact (reads.unique (readsAgain other looks)).2

end

/-- A primary expression is read off the front of some tokens. -/
def readPrimaryOf : (tokens : List Token) → Parsed TypeExpr tokens
  | [] => failAt [] .unexpectedEnd
  | token :: inner => readPrimary token inner

/-- The derivation of a star. -/
def anyUnion : UnionSyntax := .single (.single (.suffixed (.atom .star) []))

/-- A token that does not open a primary expression is not the mark of an unknown type. -/
theorem ne_question_of_fails {token : Token} {inner : List Token} {remaining : Nat}
    (fails : Fails (readPrimary token inner) remaining) : token ≠ .question := by
  rintro rfl
  rw [readPrimary, fails_ok_iff] at fails
  exact fails

section Continuing

variable {tokens part inner other : List Token} {value : TypeExpr}

/-- Behind a first alternative and the bar, further alternatives are read. -/
theorem accepts_of_accepts_alternatives
    (before : ReadsBefore readIntersection tokens value (.pipe :: inner))
    (same : part ++ .pipe :: inner = tokens)
    (accepted : Accepts readUnion (part ++ [.pipe] ++ other)) : Accepts readUnion other := by
  obtain ⟨whole, rest, reads⟩ := accepted
  rw [List.append_assoc, List.singleton_append] at reads
  obtain ⟨again, middle, start, continued⟩ := reads_readUnion_iff.mp reads
  obtain rfl := before.eq_rest same (looksLike_cons (by simp) (by simp) _ other) start
  rcases continued with ⟨noBar, -, -⟩ | ⟨inner, behind, right, last, -⟩
  · exact absurd rfl noBar
  · cases behind
    exact ⟨right, rest, last⟩

theorem accepts_of_accepts_intersected
    (before : ReadsBefore readOperand tokens value (.ampersand :: inner))
    (same : part ++ .ampersand :: inner = tokens)
    (accepted : Accepts readIntersection (part ++ [.ampersand] ++ other)) :
    Accepts readIntersection other := by
  obtain ⟨whole, rest, reads⟩ := accepted
  rw [List.append_assoc, List.singleton_append] at reads
  obtain ⟨again, middle, start, continued⟩ := reads_readIntersection_iff.mp reads
  obtain rfl := before.eq_rest same (looksLike_cons (by simp) (by simp) _ other) start
  rcases continued with ⟨noSign, -, -⟩ | ⟨inner, behind, right, last, -⟩
  · exact absurd rfl noSign
  · cases behind
    exact ⟨right, rest, last⟩

/-- Behind a first argument and the comma, further arguments are read. -/
theorem accepts_of_accepts_arguments
    (before : ReadsBefore readUnion tokens value (.comma :: inner))
    (same : part ++ .comma :: inner = tokens)
    (accepted : Accepts readArguments (part ++ [.comma] ++ other)) :
    Accepts readArguments other := by
  obtain ⟨values, rest, reads⟩ := accepted
  rw [List.append_assoc, List.singleton_append] at reads
  obtain ⟨again, middle, start, continued⟩ := reads_readArguments_iff.mp reads
  obtain rfl := before.eq_rest same (looksLike_cons (by simp) (by simp) _ other) start
  rcases continued with ⟨closed, -⟩ | ⟨inner, more, others, last, -⟩
  · cases closed
  · cases more
    exact ⟨others, rest, last⟩

/-- Behind a first entry and the comma, further entries are read. -/
theorem accepts_of_accepts_entries {key : Key}
    (before : ReadsBefore readUnion tokens value (.comma :: inner))
    (same : part ++ .comma :: inner = tokens)
    (accepted : Accepts readEntries (key.token :: .colon :: (part ++ [.comma]) ++ other)) :
    Accepts readEntries other := by
  obtain ⟨values, rest, reads⟩ := accepted
  rw [List.cons_append, List.cons_append, List.append_assoc, List.singleton_append] at reads
  obtain ⟨body, colon, again, middle, start, continued⟩ := reads_readEntries_key_iff.mp reads
  cases colon
  obtain rfl := before.eq_rest same (looksLike_cons (by simp) (by simp) _ other) start
  rcases continued with ⟨closed, -⟩ | ⟨inner, more, others, last, -⟩
  · cases closed
  · cases more
    exact ⟨others, rest, last⟩

variable {place : List Token}

/-- Behind an argument there is a comma or the bracket that closes the arguments. -/
theorem not_accepts_arguments (before : ReadsBefore readUnion tokens value place)
    (same : part ++ place = tokens) (noComma : place.head? ≠ some .comma)
    (unclosed : place.head? ≠ some .greater) (looks : LooksLike place other) :
    ¬Accepts readArguments (part ++ other) := by
  rintro ⟨values, rest, reads⟩
  obtain ⟨again, middle, start, continued⟩ := reads_readArguments_iff.mp reads
  obtain rfl := before.eq_rest same looks start
  rcases continued with ⟨rfl, -⟩ | ⟨inner, rfl, -⟩
  · exact unclosed looks.1
  · exact noComma looks.1

/-- Behind an entry there is a comma or the brace that closes the record. -/
theorem not_accepts_entries {key : Key} (before : ReadsBefore readUnion tokens value place)
    (same : part ++ place = tokens) (noComma : place.head? ≠ some .comma)
    (unclosed : place.head? ≠ some .rightBrace) (looks : LooksLike place other) :
    ¬Accepts readEntries (key.token :: .colon :: part ++ other) := by
  rintro ⟨values, rest, reads⟩
  obtain ⟨body, colon, again, middle, start, continued⟩ := reads_readEntries_key_iff.mp reads
  cases colon
  obtain rfl := before.eq_rest same looks start
  rcases continued with ⟨rfl, -⟩ | ⟨inner, rfl, -⟩
  · exact unclosed looks.1
  · exact noComma looks.1

theorem not_accepts_parenthesis (before : ReadsBefore readUnion tokens value place)
    (same : part ++ place = tokens) (unclosed : place.head? ≠ some .rightParenthesis)
    (looks : LooksLike place other) :
    ¬Accepts readPrimaryOf (.leftParenthesis :: part ++ other) := by
  rintro ⟨tree, rest, reads⟩
  obtain ⟨again, inside, -⟩ := reads_readPrimary_parenthesis_iff.mp reads
  obtain rfl := before.eq_rest same looks inside
  exact unclosed looks.1

/-- Behind a name and the bracket, arguments are read. -/
theorem accepts_of_accepts_generic {subject : String} {dotted : Bool}
    (accepted : Accepts readPrimaryOf
      (.word subject :: ((if dotted then [.dot] else []) ++ [.less]) ++ other)) :
    Accepts readArguments other := by
  obtain ⟨tree, rest, reads⟩ := accepted
  rw [List.cons_append, List.append_assoc, List.singleton_append] at reads
  rcases reads_readPrimary_word_iff.mp reads with ⟨alone, -⟩ | ⟨arguments, found, more⟩
  · rw [argumentTokens?_dotted] at alone
    cases alone
  · rw [argumentTokens?_dotted, Option.some.injEq] at found
    obtain ⟨objects, inside, -⟩ := more
    exact ⟨objects, rest, found ▸ inside⟩

end Continuing

mutual

theorem stuckAt_union {tokens : List Token} {remaining : Nat}
    (fails : Fails (readUnion tokens) remaining) :
    StuckAt readUnion UnionSyntax.tokens tokens remaining := by
  rcases fails_readUnion_iff.mp fails with first | ⟨left, inner, first, second⟩
  · refine (stuckAt_intersection first).behind [] (fun part => ⟨.single part, [], ?_⟩) ?_
    · simp [UnionSyntax.tokens]
    · rintro other - ⟨value, rest, reads⟩
      obtain ⟨left, middle, start, -⟩ := reads_readUnion_iff.mp reads
      exact ⟨left, middle, start⟩
  · have fewer := first.length_lt
    obtain ⟨only, same, -⟩ := exists_intersection_of_reads first
    have stuck := stuckAt_union second
    have whole : (only.tokens ++ [.pipe]) ++ inner = tokens := by simpa using same
    rw [← whole]
    refine stuck.behind _ (fun part => ⟨.alternatives only part, [], ?_⟩) fun other _ => ?_
    · simp [UnionSyntax.tokens]
    · exact accepts_of_accepts_alternatives (readsBefore_intersection first) same
termination_by (tokens.length, 3)
decreasing_by
  · exact .right _ (by simp)
  · exact .left _ _ (by simp at fewer; omega)

theorem stuckAt_intersection {tokens : List Token} {remaining : Nat}
    (fails : Fails (readIntersection tokens) remaining) :
    StuckAt readIntersection IntersectionSyntax.tokens tokens remaining := by
  rcases fails_readIntersection_iff.mp fails with first | ⟨left, inner, first, second⟩
  · refine (stuckAt_operand first).behind [] (fun part => ⟨.single part, [], ?_⟩) ?_
    · simp [IntersectionSyntax.tokens]
    · rintro other - ⟨value, rest, reads⟩
      obtain ⟨left, middle, start, -⟩ := reads_readIntersection_iff.mp reads
      exact ⟨left, middle, start⟩
  · have fewer := first.length_lt
    obtain ⟨only, same, -⟩ := exists_operand_of_reads first
    have stuck := stuckAt_intersection second
    have whole : (only.tokens ++ [.ampersand]) ++ inner = tokens := by simpa using same
    rw [← whole]
    refine stuck.behind _ (fun part => ⟨.both only part, [], ?_⟩) fun other _ => ?_
    · simp [IntersectionSyntax.tokens]
    · exact accepts_of_accepts_intersected (readsBefore_operand first) same
termination_by (tokens.length, 2)
decreasing_by
  · exact .right _ (by simp)
  · exact .left _ _ (by simp at fewer; omega)

theorem stuckAt_operand {tokens : List Token} {remaining : Nat}
    (fails : Fails (readOperand tokens) remaining) :
    StuckAt readOperand OperandSyntax.tokens tokens remaining := by
  match tokens with
  | [] =>
      refine ⟨[], [], rfl, fails_readOperand_nil_iff.mp fails,
        ⟨.suffixed (.atom .star) [], _, rfl⟩, fun other looks => ?_⟩
      rintro ⟨value, rest, reads⟩
      obtain rfl := looks.eq_nil
      exact not_reads_readOperand_nil reads
  | token :: inner =>
      rcases mark_or_isUnmarked token inner with ⟨mark, rfl, operand⟩ | unmarked
      · have stuck := stuckAt_operand ((fails_readOperand_marked_iff operand).mp fails)
        refine stuck.behind [mark.token] (fun part => ⟨.marked mark part, [], ?_⟩) ?_
        · simp [OperandSyntax.tokens]
        · rintro other looks ⟨value, rest, reads⟩
          rw [looks.1] at operand
          obtain ⟨tree, more, -⟩ := (reads_readOperand_marked_iff operand).mp reads
          exact ⟨tree, rest, more⟩
      · have first := (fails_readOperand_unmarked_iff unmarked).mp fails
        have noQuestion := ne_question_of_fails first
        refine (stuckAt_primary first).behind [] (fun part => ⟨.suffixed part [], [], ?_⟩) ?_
        · simp [OperandSyntax.tokens]
        · rintro other looks ⟨value, rest, reads⟩
          obtain ⟨behind, rfl⟩ := List.head?_eq_some_iff.mp looks.1.symm
          have still : IsUnmarked token behind :=
            ⟨unmarked.1, unmarked.2.1, fun same => absurd same noQuestion⟩
          obtain ⟨node, middle, start, -⟩ := (reads_readOperand_unmarked_iff still).mp reads
          exact ⟨node, middle, start⟩
termination_by (tokens.length, 1)
decreasing_by
  · exact .left _ _ (by simp)
  · exact .right _ (by simp)

theorem stuckAt_primary {token : Token} {inner : List Token} {remaining : Nat}
    (fails : Fails (readPrimary token inner) remaining) :
    StuckAt readPrimaryOf PrimarySyntax.tokens (token :: inner) remaining := by
  rcases fails_readPrimary_cases fails with ⟨subject, arguments, rfl, opened, inside⟩ |
    ⟨rfl, inside | ⟨tree, place, read, unclosed, left⟩⟩ | ⟨rfl, inside⟩ | ⟨left, never⟩
  · have fewer := length_argumentTokens?_lt opened
    have stuck := stuckAt_arguments inside
    obtain ⟨dotted, rfl⟩ := exists_dotted_of_argumentTokens? opened
    have whole : (.word subject :: ((if dotted then [.dot] else []) ++ [.less])) ++ arguments =
        .word subject :: ((if dotted then [.dot] else []) ++ .less :: arguments) := by simp
    rw [← whole]
    refine stuck.behind _ (fun part => ⟨.generic subject dotted part, [], ?_⟩) fun other _ => ?_
    · simp [PrimarySyntax.tokens]
    · exact accepts_of_accepts_generic
  · refine (stuckAt_union inside).behind [.leftParenthesis]
      (fun part => ⟨.parenthesis part, [.rightParenthesis], ?_⟩) ?_
    · simp [PrimarySyntax.tokens]
    · rintro other - ⟨value, rest, reads⟩
      obtain ⟨tree, inside, -⟩ := reads_readPrimary_parenthesis_iff.mp reads
      exact ⟨tree, _, inside⟩
  · obtain ⟨found, same, -⟩ := exists_union_of_reads read
    refine ⟨.leftParenthesis :: found.tokens, place, by simp [same], left,
      ⟨.parenthesis found, [.rightParenthesis], by simp [PrimarySyntax.tokens]⟩,
      fun other looks => ?_⟩
    exact not_accepts_parenthesis (readsBefore_union read) same unclosed looks
  · refine (stuckAt_entries inside).behind [.leftBrace] (fun part => ⟨.record part, [], ?_⟩) ?_
    · simp [PrimarySyntax.tokens]
    · rintro other - ⟨value, rest, reads⟩
      obtain ⟨entries, inside, -⟩ := reads_readPrimary_brace_iff.mp reads
      exact ⟨entries, rest, inside⟩
  · refine ⟨[], token :: inner, rfl, left.symm, ⟨.atom .star, _, rfl⟩, ?_⟩
    rintro other looks ⟨value, rest, reads⟩
    obtain ⟨behind, rfl⟩ := List.head?_eq_some_iff.mp looks.1.symm
    exact never behind value rest reads
termination_by (inner.length + 1, 0)
decreasing_by
  · exact .left _ _ (by omega)
  · exact .left _ _ (by simp)
  · exact .left _ _ (by simp)

/-- The tokens in front of the place are the beginning of arguments up to the bracket that
closes them. -/
theorem stuckAt_arguments {tokens : List Token} {remaining : Nat}
    (fails : Fails (readArguments tokens) remaining) :
    StuckAt readArguments (fun part : ArgumentsSyntax => part.tokens ++ [.greater]) tokens
      remaining := by
  rcases fails_readArguments_iff.mp fails with only | ⟨first, inner, read, behind⟩ |
    ⟨first, place, read, noComma, unclosed, left⟩
  · refine (stuckAt_union only).behind [] (fun part => ⟨.last part, [.greater], rfl⟩) ?_
    rintro other - ⟨values, rest, reads⟩
    obtain ⟨first, middle, start, -⟩ := reads_readArguments_iff.mp reads
    exact ⟨first, middle, start⟩
  · have fewer := read.length_lt
    obtain ⟨found, same, -⟩ := exists_union_of_reads read
    have stuck := stuckAt_arguments behind
    have whole : (found.tokens ++ [.comma]) ++ inner = tokens := by simpa using same
    rw [← whole]
    refine stuck.behind _ (fun part => ⟨.more found part, [], ?_⟩) fun other _ => ?_
    · simp [ArgumentsSyntax.tokens]
    · exact accepts_of_accepts_arguments (readsBefore_union read) same
  · obtain ⟨found, same, -⟩ := exists_union_of_reads read
    exact ⟨found.tokens, place, same, left, ⟨.last found, [.greater], rfl⟩,
      fun other => not_accepts_arguments (readsBefore_union read) same noComma unclosed⟩
termination_by (tokens.length, 4)
decreasing_by
  · exact .right _ (by simp)
  · exact .left _ _ (by simp at fewer; omega)

/-- The tokens in front of the place are the beginning of entries up to the brace that closes
them. -/
theorem stuckAt_entries {tokens : List Token} {remaining : Nat}
    (fails : Fails (readEntries tokens) remaining) :
    StuckAt readEntries (fun part : EntriesSyntax => part.tokens ++ [.rightBrace]) tokens
      remaining := by
  rcases fails_readEntries_cases fails with ⟨left, unclosed, noKey⟩ | ⟨key, more, start⟩
  · refine ⟨[], tokens, rfl, left, ⟨.none, [.rightBrace], rfl⟩, ?_⟩
    rintro other looks ⟨values, rest, reads⟩
    rcases reads_readEntries_iff.mp reads with ⟨closed, -⟩ | ⟨key, body, start, -⟩
    · obtain rfl : other = _ := closed
      exact unclosed looks.1
    · obtain rfl : other = _ := start
      exact noKey key looks.1
  · rw [start] at fails ⊢
    rcases fails_readEntries_key_iff.mp fails with ⟨noColon, left⟩ | ⟨body, rfl, inside⟩
    · refine ⟨[key.token], more, rfl, left, ⟨.last key anyUnion, _, rfl⟩, ?_⟩
      rintro other looks ⟨values, rest, reads⟩
      obtain ⟨body, rfl, -⟩ := reads_readEntries_key_iff.mp reads
      exact noColon looks.1
    · have bodyFewer : body.length < tokens.length := by
        simp only [start, List.length_cons]
        omega
      rcases inside with only | ⟨first, inner, read, behind⟩ |
        ⟨first, place, read, noComma, unclosed, left⟩
      · refine (stuckAt_union only).behind [key.token, .colon]
          (fun part => ⟨.last key part, [.rightBrace], by simp [EntriesSyntax.tokens]⟩) ?_
        rintro other - ⟨values, rest, reads⟩
        obtain ⟨body, same, first, middle, start, -⟩ := reads_readEntries_key_iff.mp reads
        cases same
        exact ⟨first, middle, start⟩
      · have fewer := read.length_lt
        obtain ⟨found, same, -⟩ := exists_union_of_reads read
        have stuck := stuckAt_entries behind
        have whole : (key.token :: .colon :: (found.tokens ++ [.comma])) ++ inner =
            key.token :: .colon :: body := by simp [← same]
        rw [← whole]
        refine stuck.behind _ (fun part => ⟨.more key found part, [], ?_⟩) fun other _ => ?_
        · simp [EntriesSyntax.tokens]
        · exact accepts_of_accepts_entries (readsBefore_union read) same
      · obtain ⟨found, same, -⟩ := exists_union_of_reads read
        exact ⟨key.token :: .colon :: found.tokens, place, by simp [same], left,
          ⟨.last key found, [.rightBrace], rfl⟩,
          fun other => not_accepts_entries (readsBefore_union read) same noComma unclosed⟩
termination_by (tokens.length, 0)
decreasing_by
  · exact .left _ _ bodyFewer
  · exact .left _ _ (by simp at fewer; omega)

end

/-- Some tokens begin a list of tokens that is read as a type expression. -/
def Completable (front : List Token) : Prop :=
  ∃ more tree, readTokens (front ++ more) = .ok tree

theorem completable_of_derivation {front more : List Token} {derivation : UnionSyntax}
    (written : derivation.tokens = front ++ more) : Completable front :=
  ⟨more, derivation.tree, readTokens_eq_ok_iff_exists.mpr ⟨derivation, written, rfl⟩⟩

/-- Tokens are not read as a type expression where the reader gets stuck or does not get to
their end. -/
theorem fails_or_reads_of_readTokens {tokens : List Token} {failure : GrammarFailure}
    (failed : readTokens tokens = .error failure) :
    Fails (readUnion tokens) failure.remaining ∨
      ∃ tree rest, Reads (readUnion tokens) tree rest ∧ rest ≠ [] ∧
        rest.length = failure.remaining := by
  cases tokens with
  | nil =>
      cases failed
      exact .inl (fails_readUnion_iff.mpr (.inl (fails_readIntersection_iff.mpr
        (.inl (fails_readOperand_nil_iff.mpr rfl)))))
  | cons token inner =>
      rw [readTokens, if_neg (by simp)] at failed
      cases outcome : readUnion (token :: inner) with
      | error found =>
          rw [outcome] at failed
          cases failed
          exact .inl ⟨_, rfl⟩
      | ok found =>
          obtain ⟨tree, rest, shorter⟩ := found
          rw [outcome] at failed
          by_cases finished : rest = []
          · simp [finished] at failed
          · simp only [finished, if_false] at failed
            cases failed
            exact .inr ⟨tree, rest, ⟨shorter, rfl⟩, finished, rfl⟩

/-- Where tokens are not read as a type expression, the tokens in front of the place of the
failure can be completed, and no tokens that look like those from the place on complete
them. -/
theorem exists_place_of_readTokens {tokens : List Token} {failure : GrammarFailure}
    (failed : readTokens tokens = .error failure) :
    ∃ front place, front ++ place = tokens ∧ place.length = failure.remaining ∧
      Completable front ∧
        ∀ other, LooksLike place other → ∀ tree, readTokens (front ++ other) ≠ .ok tree := by
  rcases fails_or_reads_of_readTokens failed with fails | ⟨tree, rest, reads, unfinished, left⟩
  · obtain ⟨front, place, whole, left, ⟨found, more, begun⟩, blamed⟩ := stuckAt_union fails
    refine ⟨front, place, whole, left, completable_of_derivation begun,
      fun other looks tree accepted => blamed other looks ?_⟩
    exact ⟨tree, [], readTokens_eq_ok_iff_reads.mp accepted⟩
  · obtain ⟨found, same, -⟩ := exists_union_of_reads reads
    refine ⟨found.tokens, rest, same, left,
      completable_of_derivation (List.append_nil _).symm, fun other looks tree accepted => ?_⟩
    obtain rfl := (readsBefore_union reads).eq_rest same looks
      (readTokens_eq_ok_iff_reads.mp accepted)
    exact unfinished (List.head?_eq_none_iff.mp looks.1)

/-- A token at the place of the failure can not be completed together with the tokens in front
of it, if it does not need a second token to be told apart. -/
theorem not_completable_of_looksLike {front place : List Token} {token : Token}
    (blamed : ∀ other, LooksLike (token :: place) other →
      ∀ tree, readTokens (front ++ other) ≠ .ok tree)
    (notDot : token ≠ .dot) (notBracket : token ≠ .leftBracket) :
    ¬Completable (front ++ [token]) := by
  rintro ⟨more, tree, accepted⟩
  rw [List.append_assoc, List.singleton_append] at accepted
  exact blamed _ (looksLike_cons notDot notBracket place more) tree accepted

end ApiAssembly.TypeExpr
