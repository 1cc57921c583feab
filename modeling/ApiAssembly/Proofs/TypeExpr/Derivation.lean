import ApiAssembly.Proofs.TypeExpr.Reading

/-!
# Reading and derivations

The reader accepts exactly the token lists that have a derivation, and yields the tree of
the derivation.  What makes it complete is that the tokens which can follow a nonterminal
are of lower rank than the tokens that would extend it.  The ends of the parts of a token
list are thereby determined, and so no token list has two derivations.
-/

namespace ApiAssembly.TypeExpr

/-- The reader takes as many suffixes as there are. -/
theorem exists_marks_of_suffixes {node value : TypeExpr} {tokens rest : List Token}
    (suffixed : suffixes node tokens = (value, rest)) :
    ∃ marks : List Suffix, marks.flatMap Suffix.tokens ++ rest = tokens ∧
      marks.foldl Suffix.apply node = value := by
  fun_induction suffixes node tokens with
  | case1 node inner ih =>
      obtain ⟨marks, written, applied⟩ := ih suffixed
      exact ⟨.brackets :: marks, by simp [Suffix.tokens, written], applied⟩
  | case2 node inner ih =>
      obtain ⟨marks, written, applied⟩ := ih suffixed
      exact ⟨.equals :: marks, by simp [Suffix.tokens, written], applied⟩
  | case3 node tokens =>
      cases suffixed
      exact ⟨[], rfl, rfl⟩

/-- A dot may stand in front of the bracket that opens the arguments. -/
theorem exists_dotted_of_argumentTokens? {inner arguments : List Token}
    (opened : argumentTokens? inner = some arguments) :
    ∃ dotted : Bool, inner = (if dotted then [.dot] else []) ++ .less :: arguments := by
  unfold argumentTokens? at opened
  split at opened <;> cases opened
  · exact ⟨false, rfl⟩
  · exact ⟨true, rfl⟩

mutual

theorem exists_union_of_reads {tokens rest : List Token} {value : TypeExpr}
    (reads : Reads (readUnion tokens) value rest) :
    ∃ found : UnionSyntax, found.tokens ++ rest = tokens ∧ found.tree = value := by
  obtain ⟨left, middle, first, continued⟩ := reads_readUnion_iff.mp reads
  have fewer := first.length_lt
  obtain ⟨only, written, rfl⟩ := exists_intersection_of_reads first
  rcases continued with ⟨-, rfl, rfl⟩ | ⟨inner, rfl, right, second, rfl⟩
  · exact ⟨.single only, written, rfl⟩
  · obtain ⟨others, writtenOthers, rfl⟩ := exists_union_of_reads second
    refine ⟨.alternatives only others, ?_, rfl⟩
    simp [UnionSyntax.tokens, ← written, ← writtenOthers]
termination_by (tokens.length, 3)
decreasing_by
  · exact .right _ (by simp)
  · exact .left _ _ (by simp at fewer; omega)

theorem exists_intersection_of_reads {tokens rest : List Token} {value : TypeExpr}
    (reads : Reads (readIntersection tokens) value rest) :
    ∃ found : IntersectionSyntax, found.tokens ++ rest = tokens ∧ found.tree = value := by
  obtain ⟨left, middle, first, continued⟩ := reads_readIntersection_iff.mp reads
  have fewer := first.length_lt
  obtain ⟨only, written, rfl⟩ := exists_operand_of_reads first
  rcases continued with ⟨-, rfl, rfl⟩ | ⟨inner, rfl, right, second, rfl⟩
  · exact ⟨.single only, written, rfl⟩
  · obtain ⟨others, writtenOthers, rfl⟩ := exists_intersection_of_reads second
    refine ⟨.both only others, ?_, rfl⟩
    simp [IntersectionSyntax.tokens, ← written, ← writtenOthers]
termination_by (tokens.length, 2)
decreasing_by
  · exact .right _ (by simp)
  · exact .left _ _ (by simp at fewer; omega)

theorem exists_operand_of_reads {tokens rest : List Token} {value : TypeExpr}
    (reads : Reads (readOperand tokens) value rest) :
    ∃ found : OperandSyntax, found.tokens ++ rest = tokens ∧ found.tree = value := by
  match tokens with
  | [] => exact absurd reads not_reads_readOperand_nil
  | token :: inner =>
      rcases mark_or_isUnmarked token inner with ⟨mark, rfl, operand⟩ | unmarked
      · obtain ⟨tree, more, rfl⟩ := (reads_readOperand_marked_iff operand).mp reads
        obtain ⟨found, written, rfl⟩ := exists_operand_of_reads more
        exact ⟨.marked mark found, by simp [OperandSyntax.tokens, ← written], rfl⟩
      · obtain ⟨node, middle, first, suffixed⟩ :=
          (reads_readOperand_unmarked_iff unmarked).mp reads
        obtain ⟨primary, written, rfl⟩ := exists_primary_of_reads first
        obtain ⟨marks, rfl, rfl⟩ := exists_marks_of_suffixes suffixed
        exact ⟨.suffixed primary marks, by simp [OperandSyntax.tokens, ← written], rfl⟩
termination_by (tokens.length, 1)
decreasing_by
  · exact .left _ _ (by simp)
  · exact .right _ (by simp)

theorem exists_primary_of_reads {token : Token} {inner rest : List Token}
    {value : TypeExpr} (reads : Reads (readPrimary token inner) value rest) :
    ∃ found : PrimarySyntax, found.tokens ++ rest = token :: inner ∧ found.tree = value := by
  rcases reads_readPrimary_cases reads with ⟨atom, rfl, rfl, rfl⟩ |
    ⟨subject, arguments, objects, rfl, opened, more, rfl⟩ | ⟨tree, rfl, more, rfl⟩ |
    ⟨entries, rfl, more, rfl⟩
  · exact ⟨.atom atom, rfl, rfl⟩
  · have fewer := length_argumentTokens?_lt opened
    obtain ⟨found, written, rfl⟩ := exists_arguments_of_reads more
    obtain ⟨dotted, rfl⟩ := exists_dotted_of_argumentTokens? opened
    refine ⟨.generic subject dotted found, ?_, rfl⟩
    simp [PrimarySyntax.tokens, ← written]
  · obtain ⟨found, written, rfl⟩ := exists_union_of_reads more
    exact ⟨.parenthesis found, by simp [PrimarySyntax.tokens, ← written], rfl⟩
  · obtain ⟨found, written, rfl⟩ := exists_entries_of_reads more
    exact ⟨.record found, by simp [PrimarySyntax.tokens, ← written], rfl⟩
termination_by (inner.length + 1, 0)
decreasing_by
  · exact .left _ _ (by omega)
  · exact .left _ _ (by simp)
  · exact .left _ _ (by simp)

/-- The arguments of a generic type, with the bracket that closes them. -/
theorem exists_arguments_of_reads {tokens rest : List Token} {values : List TypeExpr}
    (reads : Reads (readArguments tokens) values rest) :
    ∃ found : ArgumentsSyntax, found.tokens ++ .greater :: rest = tokens ∧
      found.trees = values := by
  obtain ⟨first, middle, argument, continued⟩ := reads_readArguments_iff.mp reads
  have fewer := argument.length_lt
  obtain ⟨found, written, rfl⟩ := exists_union_of_reads argument
  rcases continued with ⟨rfl, rfl⟩ | ⟨inner, rfl, others, more, rfl⟩
  · exact ⟨.last found, written, rfl⟩
  · obtain ⟨rest, writtenRest, rfl⟩ := exists_arguments_of_reads more
    refine ⟨.more found rest, ?_, rfl⟩
    simp [ArgumentsSyntax.tokens, ← written, ← writtenRest]
termination_by (tokens.length, 4)
decreasing_by
  · exact .right _ (by simp)
  · exact .left _ _ (by simp at fewer; omega)

/-- The entries of a record, with the brace that closes them. -/
theorem exists_entries_of_reads {tokens rest : List Token}
    {values : List (String × TypeExpr)} (reads : Reads (readEntries tokens) values rest) :
    ∃ found : EntriesSyntax, found.tokens ++ .rightBrace :: rest = tokens ∧
      found.trees = values := by
  rcases reads_readEntries_iff.mp reads with ⟨rfl, rfl⟩ | ⟨key, body, start, entry⟩
  · exact ⟨.none, rfl, rfl⟩
  · have bodyFewer : body.length < tokens.length := by
      simp only [start, List.length_cons]
      omega
    obtain ⟨first, middle, value, continued⟩ := entry
    have fewer := value.length_lt
    obtain ⟨found, written, rfl⟩ := exists_union_of_reads value
    rcases continued with ⟨rfl, rfl⟩ | ⟨inner, rfl, others, more, rfl⟩
    · exact ⟨.last key found, by simp [EntriesSyntax.tokens, start, ← written], rfl⟩
    · obtain ⟨rest, writtenRest, rfl⟩ := exists_entries_of_reads more
      refine ⟨.more key found rest, ?_, rfl⟩
      simp [EntriesSyntax.tokens, start, ← written, ← writtenRest]
termination_by (tokens.length, 0)
decreasing_by
  · exact .left _ _ bodyFewer
  · exact .left _ _ (by simp at fewer; omega)

end

/-- How tightly a token can bind what stands in front of it: closing tokens not at all,
and the tokens that begin an expression as tightly as possible. -/
def Token.rank : Token → Nat
  | .rightParenthesis | .rightBrace | .comma | .greater => 0
  | .pipe => 1
  | .ampersand => 2
  | .leftBracket | .equals => 3
  | _ => 4

/-- What can stand behind the expressions of a level. -/
def Follows (level : Nat) (rest : List Token) : Prop :=
  ∀ token ∈ rest.head?, token.rank ≤ level

theorem Follows.mono {lower upper : Nat} {rest : List Token} (follows : Follows lower rest)
    (below : lower ≤ upper) : Follows upper rest :=
  fun token member => Nat.le_trans (follows token member) below

theorem follows_nil (level : Nat) : Follows level [] := by
  simp [Follows]

theorem follows_cons {level : Nat} {token : Token} (low : token.rank ≤ level)
    (rest : List Token) : Follows level (token :: rest) := by
  simpa [Follows] using low

theorem Follows.head?_ne {level : Nat} {rest : List Token} (follows : Follows level rest)
    {token : Token} (tighter : level < token.rank) : rest.head? ≠ some token := by
  intro same
  have low := follows token same
  omega

theorem Follows.argumentTokens?_eq_none {rest : List Token} (follows : Follows 3 rest) :
    argumentTokens? rest = none := by
  unfold argumentTokens?
  split
  · exact absurd rfl (follows.head?_ne (by decide))
  · exact absurd rfl (follows.head?_ne (by decide))
  · rfl

theorem Follows.not_startsOperand {rest : List Token} (follows : Follows 3 rest) :
    startsOperand rest.head? = false := by
  cases rest with
  | nil => rfl
  | cons token rest =>
      have low := follows token rfl
      cases token <;> simp_all [Token.rank, startsOperand]

theorem suffixes_of_follows {rest : List Token} (follows : Follows 2 rest)
    (node : TypeExpr) : suffixes node rest = (node, rest) := by
  unfold suffixes
  split
  · exact absurd rfl (follows.head?_ne (by decide))
  · exact absurd rfl (follows.head?_ne (by decide))
  · rfl

theorem suffixes_flatMap {rest : List Token} (follows : Follows 2 rest)
    (marks : List Suffix) (node : TypeExpr) :
    suffixes node (marks.flatMap Suffix.tokens ++ rest) =
      (marks.foldl Suffix.apply node, rest) := by
  induction marks generalizing node with
  | nil => exact suffixes_of_follows follows node
  | cons mark marks ih =>
      cases mark <;> simp [Suffix.tokens, suffixes, ih, Suffix.apply, TypeExpr.arrayOf]

theorem follows_flatMap_tokens {rest : List Token} (follows : Follows 3 rest)
    (marks : List Suffix) : Follows 3 (marks.flatMap Suffix.tokens ++ rest) := by
  cases marks with
  | nil => exact follows
  | cons mark marks => cases mark <;> exact follows_cons (by decide) _

theorem PrimarySyntax.exists_cons (primary : PrimarySyntax) :
    ∃ token inner, primary.tokens = token :: inner := by
  cases primary <;> simp [PrimarySyntax.tokens]

/-- A primary expression does not begin with a mark. -/
theorem PrimarySyntax.isUnmarked (primary : PrimarySyntax) {token : Token}
    {inner rest : List Token} (follows : Follows 3 rest)
    (written : primary.tokens ++ rest = token :: inner) : IsUnmarked token inner := by
  cases primary with
  | atom atom =>
      rw [PrimarySyntax.tokens, List.singleton_append, List.cons.injEq] at written
      obtain ⟨rfl, rfl⟩ := written
      refine ⟨?_, ?_, fun _ => follows.not_startsOperand⟩ <;> cases atom <;> simp [Atom.token]
  | _ =>
      simp only [PrimarySyntax.tokens, List.cons_append, List.cons.injEq] at written
      obtain ⟨rfl, -⟩ := written
      simp [IsUnmarked]

theorem PrimarySyntax.startsOperand_tokens (primary : PrimarySyntax) (rest : List Token) :
    startsOperand (primary.tokens ++ rest).head? = true := by
  cases primary with
  | atom atom => cases atom <;> rfl
  | _ => simp [PrimarySyntax.tokens, startsOperand]

theorem OperandSyntax.startsOperand_tokens (operand : OperandSyntax) (rest : List Token) :
    startsOperand (operand.tokens ++ rest).head? = true := by
  cases operand with
  | marked mark inner => cases mark <;> rfl
  | suffixed primary marks =>
      rw [OperandSyntax.tokens, List.append_assoc]
      exact primary.startsOperand_tokens _

mutual

theorem UnionSyntax.reads (found : UnionSyntax) {rest : List Token}
    (follows : Follows 0 rest) : Reads (readUnion (found.tokens ++ rest)) found.tree rest := by
  rw [reads_readUnion_iff]
  match found with
  | .single only =>
      refine ⟨only.tree, rest, only.reads (follows.mono (by decide)), .inl ⟨?_, rfl, rfl⟩⟩
      exact follows.head?_ne (by decide)
  | .alternatives left right =>
      have stops : Follows 1 (.pipe :: (right.tokens ++ rest)) := follows_cons (by decide) _
      have first := left.reads stops
      rw [UnionSyntax.tokens, List.append_assoc, List.cons_append]
      exact ⟨left.tree, _, first, .inr ⟨_, rfl, right.tree, right.reads follows, rfl⟩⟩

theorem IntersectionSyntax.reads (found : IntersectionSyntax) {rest : List Token}
    (follows : Follows 1 rest) :
    Reads (readIntersection (found.tokens ++ rest)) found.tree rest := by
  rw [reads_readIntersection_iff]
  match found with
  | .single only =>
      refine ⟨only.tree, rest, only.reads (follows.mono (by decide)), .inl ⟨?_, rfl, rfl⟩⟩
      exact follows.head?_ne (by decide)
  | .both left right =>
      have stops : Follows 2 (.ampersand :: (right.tokens ++ rest)) :=
        follows_cons (by decide) _
      have first := left.reads stops
      rw [IntersectionSyntax.tokens, List.append_assoc, List.cons_append]
      exact ⟨left.tree, _, first, .inr ⟨_, rfl, right.tree, right.reads follows, rfl⟩⟩

theorem OperandSyntax.reads (found : OperandSyntax) {rest : List Token}
    (follows : Follows 2 rest) :
    Reads (readOperand (found.tokens ++ rest)) found.tree rest := by
  match found with
  | .marked mark inner =>
      rw [OperandSyntax.tokens, List.cons_append,
        reads_readOperand_marked_iff fun _ => inner.startsOperand_tokens rest]
      exact ⟨inner.tree, inner.reads follows, rfl⟩
  | .suffixed primary marks =>
      have behind := follows_flatMap_tokens (follows.mono (by decide)) marks
      obtain ⟨token, inner, start⟩ := primary.exists_cons
      have written : primary.tokens ++ (marks.flatMap Suffix.tokens ++ rest) =
          token :: (inner ++ (marks.flatMap Suffix.tokens ++ rest)) := by
        rw [start, List.cons_append]
      rw [OperandSyntax.tokens, List.append_assoc, written,
        reads_readOperand_unmarked_iff (primary.isUnmarked behind written)]
      exact ⟨primary.tree, _, primary.reads behind written, suffixes_flatMap follows marks _⟩

theorem PrimarySyntax.reads (found : PrimarySyntax) {token : Token} {inner rest : List Token}
    (follows : Follows 3 rest) (written : found.tokens ++ rest = token :: inner) :
    Reads (readPrimary token inner) found.tree rest := by
  match found with
  | .atom atom =>
      rw [PrimarySyntax.tokens, List.singleton_append, List.cons.injEq] at written
      obtain ⟨rfl, rfl⟩ := written
      exact reads_readPrimary_atom follows.argumentTokens?_eq_none
  | .generic subject dotted arguments =>
      simp only [PrimarySyntax.tokens, List.cons_append, List.append_assoc,
        List.cons.injEq] at written
      obtain ⟨rfl, rfl⟩ := written
      refine reads_readPrimary_word_iff.mpr
        (.inr ⟨arguments.tokens ++ .greater :: rest, ?_, arguments.trees,
          arguments.reads rest, rfl⟩)
      cases dotted <;> rfl
  | .parenthesis inside =>
      simp only [PrimarySyntax.tokens, List.cons_append, List.append_assoc,
        List.cons.injEq] at written
      obtain ⟨rfl, rfl⟩ := written
      exact reads_readPrimary_parenthesis_iff.mpr
        ⟨inside.tree, inside.reads (follows_cons (by decide) rest), rfl⟩
  | .record entries =>
      simp only [PrimarySyntax.tokens, List.cons_append, List.append_assoc,
        List.cons.injEq] at written
      obtain ⟨rfl, rfl⟩ := written
      exact reads_readPrimary_brace_iff.mpr ⟨entries.trees, entries.reads rest, rfl⟩

theorem ArgumentsSyntax.reads (found : ArgumentsSyntax) (rest : List Token) :
    Reads (readArguments (found.tokens ++ .greater :: rest)) found.trees rest := by
  rw [reads_readArguments_iff]
  match found with
  | .last argument =>
      exact ⟨argument.tree, _, argument.reads (follows_cons (by decide) rest),
        .inl ⟨rfl, rfl⟩⟩
  | .more argument others =>
      have stops : Follows 0 (.comma :: (others.tokens ++ .greater :: rest)) :=
        follows_cons (by decide) _
      have first := argument.reads stops
      rw [ArgumentsSyntax.tokens, List.append_assoc, List.cons_append]
      exact ⟨argument.tree, _, first, .inr ⟨_, rfl, others.trees, others.reads rest, rfl⟩⟩

theorem EntriesSyntax.reads (found : EntriesSyntax) (rest : List Token) :
    Reads (readEntries (found.tokens ++ .rightBrace :: rest)) found.trees rest := by
  rw [reads_readEntries_iff]
  match found with
  | .none => exact .inl ⟨rfl, rfl⟩
  | .last key value =>
      exact .inr ⟨key, _, rfl, value.tree, _, value.reads (follows_cons (by decide) rest),
        .inl ⟨rfl, rfl⟩⟩
  | .more key value others =>
      have stops : Follows 0 (.comma :: (others.tokens ++ .rightBrace :: rest)) :=
        follows_cons (by decide) _
      have first := value.reads stops
      refine .inr ⟨key, value.tokens ++ .comma :: (others.tokens ++ .rightBrace :: rest), ?_,
        value.tree, _, first, .inr ⟨_, rfl, others.trees, others.reads rest, rfl⟩⟩
      simp [EntriesSyntax.tokens]

end

end ApiAssembly.TypeExpr
