import ApiAssembly.Proofs.TypeExpr.Derivation

/-!
# How far the reader looks ahead

Where the reader has read an expression, it has looked at no more than the next token, or at
the next two if the first of these is a dot or an opening bracket.  So it reads the same
expression in front of all tokens that look alike in this sense.
-/

namespace ApiAssembly.TypeExpr

/-- The reader tells the two rests apart by their first tokens, and behind a dot or an opening
bracket by their second tokens. -/
def LooksLike (rest other : List Token) : Prop :=
  rest.head? = other.head? ∧
    (rest.head? = some .dot ∨ rest.head? = some .leftBracket →
      rest.tail.head? = other.tail.head?)

section

variable {tokens rest other : List Token} {token : Token} {node value : TypeExpr}

theorem looksLike_cons (notDot : token ≠ .dot) (notBracket : token ≠ .leftBracket)
    (rest other : List Token) : LooksLike (token :: rest) (token :: other) :=
  ⟨rfl, by simp [notDot, notBracket]⟩

theorem LooksLike.eq_nil (looks : LooksLike [] other) : other = [] :=
  List.head?_eq_none_iff.mp looks.1.symm

/-- Behind the same tokens, rests that look alike look alike. -/
theorem LooksLike.append (looks : LooksLike rest other) (front : List Token) :
    LooksLike (front ++ rest) (front ++ other) := by
  match front with
  | [] => exact looks
  | [token] => exact ⟨rfl, fun _ => looks.1⟩
  | token :: next :: front => exact ⟨rfl, fun _ => rfl⟩

theorem LooksLike.argumentTokens?_eq_none (looks : LooksLike rest other)
    (alone : argumentTokens? rest = none) : argumentTokens? other = none := by
  obtain ⟨sameHead, sameNext⟩ := looks
  unfold argumentTokens? at alone ⊢
  split
  next inner => exact absurd alone (by cases rest <;> simp_all)
  next inner =>
    cases rest with
    | nil => simp at sameHead
    | cons first rest => cases rest <;> simp_all
  next => rfl

theorem argumentTokens?_dotted (dotted : Bool) (arguments : List Token) :
    argumentTokens? ((if dotted then [.dot] else []) ++ .less :: arguments) = some arguments := by
  cases dotted <;> rfl

theorem LooksLike.suffixes_eq (looks : LooksLike rest other)
    (unmarked : suffixes node rest = (node, rest)) : suffixes node other = (node, other) := by
  have short {more : List Token} {longer : TypeExpr} (same : suffixes longer more = (node, rest))
      (shorter : more.length < rest.length) : False := by
    have fewer := length_suffixes_le longer more
    rw [same] at fewer
    exact Nat.not_lt.mpr fewer shorter
  obtain ⟨sameHead, sameNext⟩ := looks
  unfold suffixes at unmarked ⊢
  split
  next more =>
    cases rest with
    | nil => simp at sameHead
    | cons first rest =>
        cases rest with
        | nil => simp_all
        | cons second rest =>
            simp only [List.head?_cons, Option.some.injEq, List.tail_cons] at sameHead sameNext
            obtain rfl := sameHead
            obtain rfl := sameNext (.inr rfl)
            exact (short unmarked (by simp only [List.length_cons]; omega)).elim
  next more =>
    cases rest with
    | nil => simp at sameHead
    | cons first rest =>
        obtain rfl := Option.some.inj sameHead
        exact (short unmarked (by simp)).elim
  next => rfl

/-- A reader reads the same in front of all rests that look alike. -/
def ReadsBefore {α : Type} (reader : (tokens : List Token) → Parsed α tokens)
    (tokens : List Token) (value : α) (rest : List Token) : Prop :=
  ∃ front, front ++ rest = tokens ∧
    ∀ other, LooksLike rest other → Reads (reader (front ++ other)) value other

/-- Suffixes are read up to the same place. -/
theorem exists_of_suffixes (suffixed : suffixes node tokens = (value, rest)) :
    ∃ front, front ++ rest = tokens ∧
      ∀ other, LooksLike rest other → suffixes node (front ++ other) = (value, other) := by
  fun_induction suffixes node tokens with
  | case1 node inner ih =>
      obtain ⟨front, rfl, same⟩ := ih suffixed
      exact ⟨.leftBracket :: .rightBracket :: front, rfl, fun other looks => same other looks⟩
  | case2 node inner ih =>
      obtain ⟨front, rfl, same⟩ := ih suffixed
      exact ⟨.equals :: front, rfl, fun other looks => same other looks⟩
  | case3 node tokens noBrackets noEquals =>
      cases suffixed
      refine ⟨[], rfl, fun other looks => looks.suffixes_eq ?_⟩
      rw [suffixes]
      · exact noBrackets
      · exact noEquals

/-- A token stays unmarked when what follows it looks alike. -/
theorem IsUnmarked.of_head?_eq (unmarked : IsUnmarked token rest)
    (same : rest.head? = other.head?) : IsUnmarked token other :=
  ⟨unmarked.1, unmarked.2.1, same ▸ unmarked.2.2⟩

end

mutual

theorem readsBefore_union {tokens rest : List Token} {value : TypeExpr}
    (reads : Reads (readUnion tokens) value rest) :
    ReadsBefore readUnion tokens value rest := by
  obtain ⟨left, middle, first, continued⟩ := reads_readUnion_iff.mp reads
  have fewer := first.length_lt
  obtain ⟨front, written, before⟩ := readsBefore_intersection first
  rcases continued with ⟨noBar, rfl, rfl⟩ | ⟨inner, rfl, right, second, rfl⟩
  · refine ⟨front, written, fun other looks => reads_readUnion_iff.mpr ?_⟩
    exact ⟨left, other, before other looks, .inl ⟨looks.1 ▸ noBar, rfl, rfl⟩⟩
  · obtain ⟨more, rfl, behind⟩ := readsBefore_union second
    subst written
    refine ⟨front ++ .pipe :: more, by simp, fun other looks => reads_readUnion_iff.mpr ?_⟩
    rw [List.append_assoc, List.cons_append]
    exact ⟨left, _, before _ (looksLike_cons (by simp) (by simp) _ _),
      .inr ⟨_, rfl, right, behind other looks, rfl⟩⟩
termination_by (tokens.length, 3)
decreasing_by
  · exact .right _ (by simp)
  · exact .left _ _ (by simp at fewer; omega)

theorem readsBefore_intersection {tokens rest : List Token} {value : TypeExpr}
    (reads : Reads (readIntersection tokens) value rest) :
    ReadsBefore readIntersection tokens value rest := by
  obtain ⟨left, middle, first, continued⟩ := reads_readIntersection_iff.mp reads
  have fewer := first.length_lt
  obtain ⟨front, written, before⟩ := readsBefore_operand first
  rcases continued with ⟨noSign, rfl, rfl⟩ | ⟨inner, rfl, right, second, rfl⟩
  · refine ⟨front, written, fun other looks => reads_readIntersection_iff.mpr ?_⟩
    exact ⟨left, other, before other looks, .inl ⟨looks.1 ▸ noSign, rfl, rfl⟩⟩
  · obtain ⟨more, rfl, behind⟩ := readsBefore_intersection second
    subst written
    refine ⟨front ++ .ampersand :: more, by simp,
      fun other looks => reads_readIntersection_iff.mpr ?_⟩
    rw [List.append_assoc, List.cons_append]
    exact ⟨left, _, before _ (looksLike_cons (by simp) (by simp) _ _),
      .inr ⟨_, rfl, right, behind other looks, rfl⟩⟩
termination_by (tokens.length, 2)
decreasing_by
  · exact .right _ (by simp)
  · exact .left _ _ (by simp at fewer; omega)

theorem readsBefore_operand {tokens rest : List Token} {value : TypeExpr}
    (reads : Reads (readOperand tokens) value rest) :
    ReadsBefore readOperand tokens value rest := by
  match tokens with
  | [] => exact absurd reads not_reads_readOperand_nil
  | token :: inner =>
      rcases mark_or_isUnmarked token inner with ⟨mark, rfl, operand⟩ | unmarked
      · obtain ⟨tree, more, rfl⟩ := (reads_readOperand_marked_iff operand).mp reads
        obtain ⟨front, rfl, before⟩ := readsBefore_operand more
        refine ⟨mark.token :: front, rfl, fun other looks => ?_⟩
        rw [(looks.append front).1] at operand
        exact (reads_readOperand_marked_iff operand).mpr ⟨tree, before other looks, rfl⟩
      · obtain ⟨node, middle, first, suffixed⟩ :=
          (reads_readOperand_unmarked_iff unmarked).mp reads
        obtain ⟨front, rfl, before⟩ := readsBefore_primary first
        obtain ⟨marks, rfl, behind⟩ := exists_of_suffixes suffixed
        refine ⟨token :: (front ++ marks), by simp, fun other looks => ?_⟩
        have between := looks.append marks
        rw [List.cons_append, List.append_assoc, reads_readOperand_unmarked_iff
          (unmarked.of_head?_eq (between.append front).1)]
        exact ⟨node, _, before _ between, behind other looks⟩
termination_by (tokens.length, 1)
decreasing_by
  · exact .left _ _ (by simp)
  · exact .right _ (by simp)

theorem readsBefore_primary {token : Token} {inner rest : List Token} {value : TypeExpr}
    (reads : Reads (readPrimary token inner) value rest) :
    ∃ front, front ++ rest = inner ∧
      ∀ other, LooksLike rest other → Reads (readPrimary token (front ++ other)) value other := by
  rcases reads_readPrimary_cases reads with ⟨atom, rfl, rfl, rfl⟩ |
    ⟨subject, arguments, objects, rfl, opened, more, rfl⟩ | ⟨tree, rfl, more, rfl⟩ |
    ⟨entries, rfl, more, rfl⟩
  · refine ⟨[], rfl, fun other looks => ?_⟩
    cases atom with
    | word subject =>
        rcases reads_readPrimary_word_iff.mp reads with ⟨alone, -, -⟩ | ⟨_, _, _, _, impossible⟩
        · exact reads_readPrimary_atom (looks.argumentTokens?_eq_none alone)
        · cases impossible
    | _ =>
        rw [Atom.token, readPrimary, reads_ok_iff]
        exact ⟨rfl, rfl⟩
  · have fewer := length_argumentTokens?_lt opened
    obtain ⟨front, rfl, before⟩ := readsBefore_arguments more
    obtain ⟨dotted, rfl⟩ := exists_dotted_of_argumentTokens? opened
    refine ⟨(if dotted then [.dot] else []) ++ .less :: front, by simp,
      fun other looks => reads_readPrimary_word_iff.mpr (.inr ?_)⟩
    rw [List.append_assoc, List.cons_append]
    exact ⟨front ++ other, argumentTokens?_dotted dotted _, objects, before other looks, rfl⟩
  · obtain ⟨front, rfl, before⟩ := readsBefore_union more
    refine ⟨front ++ [.rightParenthesis], by simp,
      fun other _ => reads_readPrimary_parenthesis_iff.mpr ⟨tree, ?_, rfl⟩⟩
    rw [List.append_assoc]
    exact before _ (looksLike_cons (by simp) (by simp) _ _)
  · obtain ⟨front, rfl, before⟩ := readsBefore_entries more
    exact ⟨front, rfl, fun other looks =>
      reads_readPrimary_brace_iff.mpr ⟨entries, before other looks, rfl⟩⟩
termination_by (inner.length + 1, 0)
decreasing_by
  · exact .left _ _ (by omega)
  · exact .left _ _ (by simp)
  · exact .left _ _ (by simp)

theorem readsBefore_arguments {tokens rest : List Token} {values : List TypeExpr}
    (reads : Reads (readArguments tokens) values rest) :
    ReadsBefore readArguments tokens values rest := by
  obtain ⟨first, middle, argument, continued⟩ := reads_readArguments_iff.mp reads
  have fewer := argument.length_lt
  obtain ⟨front, written, before⟩ := readsBefore_union argument
  rcases continued with ⟨rfl, rfl⟩ | ⟨inner, rfl, others, more, rfl⟩
  · refine ⟨front ++ [.greater], by simp [← written],
      fun other _ => reads_readArguments_iff.mpr ?_⟩
    rw [List.append_assoc]
    exact ⟨first, _, before _ (looksLike_cons (by simp) (by simp) _ _), .inl ⟨rfl, rfl⟩⟩
  · obtain ⟨later, rfl, behind⟩ := readsBefore_arguments more
    subst written
    refine ⟨front ++ .comma :: later, by simp, fun other looks =>
      reads_readArguments_iff.mpr ?_⟩
    rw [List.append_assoc, List.cons_append]
    exact ⟨first, _, before _ (looksLike_cons (by simp) (by simp) _ _),
      .inr ⟨_, rfl, others, behind other looks, rfl⟩⟩
termination_by (tokens.length, 4)
decreasing_by
  · exact .right _ (by simp)
  · exact .left _ _ (by simp at fewer; omega)

theorem readsBefore_entries {tokens rest : List Token}
    {values : List (String × TypeExpr)}
    (reads : Reads (readEntries tokens) values rest) :
    ReadsBefore readEntries tokens values rest := by
  rcases reads_readEntries_iff.mp reads with ⟨rfl, rfl⟩ | ⟨key, body, start, entry⟩
  · exact ⟨[.rightBrace], rfl, fun other _ => reads_readEntries_iff.mpr (.inl ⟨rfl, rfl⟩)⟩
  · have bodyFewer : body.length < tokens.length := by
      simp only [start, List.length_cons]
      omega
    obtain ⟨first, middle, value, continued⟩ := entry
    have fewer := value.length_lt
    obtain ⟨front, written, before⟩ := readsBefore_union value
    rcases continued with ⟨rfl, rfl⟩ | ⟨inner, rfl, others, more, rfl⟩
    · refine ⟨key.token :: .colon :: (front ++ [.rightBrace]), by simp [start, ← written],
        fun other _ => reads_readEntries_iff.mpr
          (.inr ⟨key, front ++ .rightBrace :: other, by simp, first, ?_⟩)⟩
      exact ⟨_, before _ (looksLike_cons (by simp) (by simp) _ _), .inl ⟨rfl, rfl⟩⟩
    · obtain ⟨later, rfl, behind⟩ := readsBefore_entries more
      subst written
      refine ⟨key.token :: .colon :: (front ++ .comma :: later), by simp [start],
        fun other looks => reads_readEntries_iff.mpr
          (.inr ⟨key, front ++ .comma :: (later ++ other), by simp, first, ?_⟩)⟩
      exact ⟨_, before _ (looksLike_cons (by simp) (by simp) _ _),
        .inr ⟨_, rfl, others, behind other looks, rfl⟩⟩
termination_by (tokens.length, 0)
decreasing_by
  · exact .left _ _ bodyFewer
  · exact .left _ _ (by simp at fewer; omega)

end

end ApiAssembly.TypeExpr
