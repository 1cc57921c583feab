import ApiAssembly.Proofs.TypeExpr.Canonical
import ApiAssembly.Proofs.TypeExpr.Spacing
import ApiAssembly.Proofs.TypeExpr.Unambiguous
import ApiAssembly.TypeExpr.Parse

/-!
# Writing and reading type expressions

Reading takes every text of a canonical tree back to the tree, and never yields any other
tree.
-/

namespace ApiAssembly.TypeExpr

variable {tree : TypeExpr} {tokens : List Token}

/-- Suffixes keep a tree canonical, whatever binds as tightly as they do. -/
theorem canonical_foldl_apply (marks : List Suffix)
    (canonical : Canonical tree ∧ 3 ≤ tree.level) :
    Canonical (marks.foldl Suffix.apply tree) ∧
      3 ≤ (marks.foldl Suffix.apply tree).level := by
  induction marks generalizing tree with
  | nil => exact canonical
  | cons mark marks ih =>
      apply ih
      cases mark with
      | brackets =>
          refine ⟨.generic (by decide) (List.cons_ne_nil _ _) ?_, Nat.le_refl _⟩
          intro object member
          rw [List.mem_singleton.mp member]
          exact canonical.1
      | equals => exact ⟨.optional canonical.2 canonical.1, Nat.le_refl _⟩

theorem Atom.canonical_tree (atom : Atom) (spelled : Spelled [atom.token]) :
    Canonical atom.tree ∧ 3 ≤ atom.tree.level := by
  obtain ⟨spelling, spells⟩ := spelled atom.token List.mem_cons_self
  cases atom with
  | word name => exact ⟨.name (isWord_of_spells spells), Nat.le_refl _⟩
  | number value => exact ⟨.number spells, Nat.le_refl _⟩
  | quoted text => exact ⟨.string, Nat.le_refl _⟩
  | star => exact ⟨.any, Nat.le_refl _⟩
  | question => exact ⟨.unknown, Nat.le_refl _⟩

mutual

/-- What a derivation of tokens with spellings stands for is canonical. -/
theorem UnionSyntax.canonical_tree (found : UnionSyntax) (spelled : Spelled found.tokens) :
    Canonical found.tree := by
  match found with
  | .single only => exact (only.canonical_tree spelled).1
  | .alternatives left right =>
      rw [UnionSyntax.tokens, spelled_append, spelled_cons] at spelled
      obtain ⟨first, above⟩ := left.canonical_tree spelled.1
      exact .union above first (right.canonical_tree spelled.2.2)

theorem IntersectionSyntax.canonical_tree (found : IntersectionSyntax)
    (spelled : Spelled found.tokens) : Canonical found.tree ∧ 1 ≤ found.tree.level := by
  match found with
  | .single only =>
      obtain ⟨canonical, above⟩ := only.canonical_tree spelled
      exact ⟨canonical, Nat.le_of_succ_le above⟩
  | .both left right =>
      rw [IntersectionSyntax.tokens, spelled_append, spelled_cons] at spelled
      obtain ⟨first, firstAbove⟩ := left.canonical_tree spelled.1
      obtain ⟨second, secondAbove⟩ := right.canonical_tree spelled.2.2
      exact ⟨.intersection firstAbove secondAbove first second, Nat.le_refl _⟩

theorem OperandSyntax.canonical_tree (found : OperandSyntax)
    (spelled : Spelled found.tokens) : Canonical found.tree ∧ 2 ≤ found.tree.level := by
  match found with
  | .marked mark inner =>
      rw [OperandSyntax.tokens, spelled_cons] at spelled
      obtain ⟨canonical, above⟩ := inner.canonical_tree spelled.2
      cases mark with
      | question => exact ⟨.nullable above canonical, Nat.le_refl _⟩
      | bang => exact ⟨.notNullable above canonical, Nat.le_refl _⟩
      | ellipsis => exact ⟨.variadic above canonical, Nat.le_refl _⟩
  | .suffixed primary marks =>
      rw [OperandSyntax.tokens, spelled_append] at spelled
      obtain ⟨canonical, above⟩ :=
        canonical_foldl_apply marks (primary.canonical_tree spelled.1)
      exact ⟨canonical, Nat.le_of_succ_le above⟩

theorem PrimarySyntax.canonical_tree (found : PrimarySyntax)
    (spelled : Spelled found.tokens) : Canonical found.tree ∧ 3 ≤ found.tree.level := by
  match found with
  | .atom atom => exact atom.canonical_tree spelled
  | .generic subject dotted arguments =>
      have spelledArguments : Spelled arguments.tokens := by
        rw [PrimarySyntax.tokens, spelled_append, spelled_append, spelled_cons] at spelled
        exact (spelled_cons.mp spelled.1.2).2
      have isSubject : isWord subject.toList = true := by
        obtain ⟨spelling, spells⟩ := spelled (.word subject) List.mem_cons_self
        exact isWord_of_spells spells
      obtain ⟨nonempty, canonical⟩ := arguments.canonical_trees spelledArguments
      exact ⟨.generic isSubject nonempty canonical, Nat.le_refl _⟩
  | .parenthesis inner =>
      rw [PrimarySyntax.tokens, List.cons_append, spelled_cons, spelled_append] at spelled
      exact ⟨.parenthesis (inner.canonical_tree spelled.2.1), Nat.le_refl _⟩
  | .record entries =>
      rw [PrimarySyntax.tokens, List.cons_append, spelled_cons, spelled_append] at spelled
      exact ⟨.record (entries.canonical_trees spelled.2.1), Nat.le_refl _⟩

theorem ArgumentsSyntax.canonical_trees (found : ArgumentsSyntax)
    (spelled : Spelled found.tokens) :
    found.trees ≠ [] ∧ ∀ object ∈ found.trees, Canonical object := by
  match found with
  | .last argument =>
      refine ⟨List.cons_ne_nil _ _, ?_⟩
      intro object member
      rw [List.mem_singleton.mp member]
      exact argument.canonical_tree spelled
  | .more argument others =>
      rw [ArgumentsSyntax.tokens, spelled_append, spelled_cons] at spelled
      refine ⟨List.cons_ne_nil _ _, ?_⟩
      intro object member
      rcases List.mem_cons.mp member with rfl | later
      · exact argument.canonical_tree spelled.1
      · exact (others.canonical_trees spelled.2.2).2 object later

theorem EntriesSyntax.canonical_trees (found : EntriesSyntax)
    (spelled : Spelled found.tokens) : ∀ entry ∈ found.trees, Canonical entry.2 := by
  match found with
  | .none =>
      intro entry member
      cases member
  | .last key value =>
      rw [EntriesSyntax.tokens, spelled_cons, spelled_cons] at spelled
      intro entry member
      rw [List.mem_singleton.mp member]
      exact value.canonical_tree spelled.2.2
  | .more key value others =>
      rw [EntriesSyntax.tokens, spelled_append, spelled_cons, spelled_cons,
        spelled_cons] at spelled
      intro entry member
      rcases List.mem_cons.mp member with rfl | later
      · exact value.canonical_tree spelled.1.2.2
      · exact others.canonical_trees spelled.2.2 entry later

end

theorem parse_of_tokens {text : String} {located : List (Nat × Token)}
    (cut : TypeExpr.tokens text.toList = .ok located)
    (read : readTokens (located.map Prod.snd) = .ok tree) : parse text = .ok tree := by
  rw [parse, cut]
  simp only [read]

/-- Text that spells a derivation is read as the tree that the derivation stands for. -/
theorem parse_of_written {found : UnionSyntax} {text : String}
    (written : Written found.tokens text.toList) : parse text = .ok found.tree := by
  obtain ⟨located, cut, same⟩ := exists_tokensWithin_of_written
    (Text.byteLength text.toList) written found.isChain_tokens
  have read : readTokens (located.map Prod.snd) = .ok found.tree := by
    rw [same, readTokens_eq_ok_iff_exists]
    exact ⟨found, rfl, rfl⟩
  exact parse_of_tokens cut read

/-- A word is read as a name. -/
theorem parse_of_isWord {name : List Char} (word : isWord name = true) :
    parse (String.ofList name) = .ok (.name (String.ofList name)) := by
  let found : UnionSyntax := .single (.single (.suffixed (.atom (.word (String.ofList name))) []))
  have written : Written [.word (String.ofList name)] (name ++ []) := .token (.word word) .nil
  rw [List.append_nil] at written
  have read : parse (String.ofList name) = .ok found.tree :=
    parse_of_written (by rwa [String.toList_ofList])
  exact read

/-- Text that is read as a tree spells a derivation that stands for the tree. -/
theorem exists_written_of_parse {text : String} (parsed : parse text = .ok tree) :
    ∃ found : UnionSyntax, Written found.tokens text.toList ∧ found.tree = tree := by
  rw [parse, tokens] at parsed
  split at parsed
  · cases parsed
  next located cut =>
    split at parsed
    · cases parsed
    next read =>
      cases parsed
      obtain ⟨found, written, stands⟩ := readTokens_eq_ok_iff_exists.mp read
      refine ⟨found, ?_, stands⟩
      rw [written]
      exact written_of_tokensWithin cut

/-- A canonical tree has a text and is read from each of its texts, and what is read from a
text is canonical. -/
theorem parse_inverts_rendering :
    (∀ tree, Canonical tree →
      (∃ text : String, Written tree.rendered text.toList) ∧
        ∀ text : String, Written tree.rendered text.toList → parse text = .ok tree) ∧
      ∀ text tree, parse text = .ok tree → Canonical tree := by
  refine ⟨fun tree canonical => ⟨?_, fun text written => ?_⟩, fun text tree parsed => ?_⟩
  · obtain ⟨text, written⟩ := exists_written canonical.spelled
    refine ⟨String.ofList text, ?_⟩
    rw [String.toList_ofList]
    exact written
  · obtain ⟨found, same, rfl⟩ := canonical.derivable.mono (Nat.zero_le _)
    rw [← same] at written
    exact parse_of_written written
  · obtain ⟨found, written, rfl⟩ := exists_written_of_parse parsed
    exact found.canonical_tree (spelled_of_written written)

/-- An array type of alternatives, of which one may be missing. -/
def nestedTree : TypeExpr :=
  .generic "Array" [.union (.name "Pet") (.nullable (.record [("a b", .string "it's")]))]

theorem canonical_nestedTree : Canonical nestedTree := by
  have record : Canonical (.record [("a b", .string "it's")]) :=
    .record (List.forall_mem_singleton.mpr .string)
  have union : Canonical (.union (.name "Pet") (.nullable (.record [("a b", .string "it's")]))) :=
    .union (by decide) (.name (by decide)) (.nullable (by decide) record)
  exact .generic (by decide) (List.cons_ne_nil _ _) (List.forall_mem_singleton.mpr union)

/-- A text of the tree with blanks between tokens and an escaped quote. -/
theorem parse_nestedTree :
    Canonical nestedTree ∧
      Written nestedTree.rendered "Array< Pet|?\x7b'a b':'it\\'s'\x7d >".toList ∧
      parse "Array< Pet|?\x7b'a b':'it\\'s'\x7d >" = .ok nestedTree := by
  obtain ⟨reads, canonical⟩ := parse_inverts_rendering
  obtain ⟨-, fromText⟩ := reads nestedTree canonical_nestedTree
  have cut : tokens "Array< Pet|?\x7b'a b':'it\\'s'\x7d >".toList =
      .ok [(0, .word "Array"), (5, .less), (7, .word "Pet"), (10, .pipe), (11, .question),
        (12, .leftBrace), (13, .quoted "a b"), (18, .colon), (19, .quoted "it's"),
        (26, .rightBrace), (28, .greater)] := by
    decide +kernel
  have written := written_of_tokensWithin cut
  have parsed := fromText _ written
  exact ⟨canonical _ _ parsed, written, parsed⟩

end ApiAssembly.TypeExpr
