import ApiAssembly.Proofs.Schema.Equation
import ApiAssembly.Proofs.TypeExpr.Chain

/-!
# Joined type expressions

Texts of type expressions that are joined by bars are read as the chain of their expressions,
whatever stands in them, as long as none of them is a union itself; and likewise those joined by
ampersands.  So the schema of the joined text is known from those of the texts: an enumeration if
all of them are literals of one kind, and their list otherwise.  The enumeration of numbers has
null in the place of a literal out of range.
-/

namespace ApiAssembly

namespace TypeExpr

variable {first second : List Token} {front back : List Char} {tree : TypeExpr} {text : String}

theorem Written.append (written : Written first front) (further : Written second back) :
    Written (first ++ second) (front ++ back) := by
  induction written with
  | nil => exact further
  | blank blank _ ih => exact .blank blank ih
  | token spells _ ih =>
      rw [List.append_assoc]
      exact .token spells ih

/-- Texts with a mark between each two spell the tokens with the separator between each two. -/
theorem written_intercalate {separator : Token} {mark : Char} (spells : Spells separator [mark])
    {pieces : List (List Token)} {texts : List (List Char)}
    (each : List.Forall₂ Written pieces texts) :
    Written ([separator].intercalate pieces) ([mark].intercalate texts) := by
  induction each with
  | nil => exact .nil
  | @cons piece text pieces texts written rest ih =>
      cases rest with
      | nil =>
          rw [List.intercalate_singleton, List.intercalate_singleton]
          exact written
      | cons next more =>
          rw [List.intercalate_cons_cons, List.intercalate_cons_cons, List.append_assoc,
            List.append_assoc]
          exact written.append (.token spells ih)

theorem exists_intersectionSyntax_of_parse (parsed : parse text = .ok tree)
    (noUnion : ∀ left right, tree ≠ .union left right) :
    ∃ piece : IntersectionSyntax, Written piece.tokens text.toList ∧ piece.tree = tree := by
  obtain ⟨found, written, stands⟩ := exists_written_of_parse parsed
  cases found with
  | single only => exact ⟨only, written, stands⟩
  | alternatives left right => exact absurd stands.symm (noUnion left.tree right.tree)

theorem exists_operandSyntax_of_parse (parsed : parse text = .ok tree)
    (noUnion : ∀ left right, tree ≠ .union left right)
    (noIntersection : ∀ left right, tree ≠ .intersection left right) :
    ∃ piece : OperandSyntax, Written piece.tokens text.toList ∧ piece.tree = tree := by
  obtain ⟨found, written, stands⟩ := exists_intersectionSyntax_of_parse parsed noUnion
  cases found with
  | single only => exact ⟨only, written, stands⟩
  | both left right => exact absurd stands.symm (noIntersection left.tree right.tree)

/-- The expressions of texts. -/
abbrev Parse (texts : List String) (trees : List TypeExpr) : Prop :=
  List.Forall₂ (fun text tree => parse text = .ok tree) texts trees

variable {texts : List String} {trees : List TypeExpr}

/-- If each text is written as a piece, then all of them are. -/
theorem exists_pieces {σ : Type} {tokens : σ → List Token} {stands : σ → TypeExpr}
    (parsed : Parse texts trees)
    (single : ∀ tree ∈ trees, ∀ text, parse text = .ok tree →
      ∃ piece, Written (tokens piece) text.toList ∧ stands piece = tree) :
    ∃ pieces : List σ, List.Forall₂ Written (pieces.map tokens) (texts.map String.toList) ∧
      pieces.map stands = trees := by
  induction parsed with
  | nil => exact ⟨[], .nil, rfl⟩
  | cons first _ ih =>
      rw [List.forall_mem_cons] at single
      obtain ⟨piece, written, rfl⟩ := single.1 _ first
      obtain ⟨pieces, others, rfl⟩ := ih single.2
      exact ⟨piece :: pieces, .cons written others, rfl⟩

theorem exists_parse_intercalate_pipe (several : 2 ≤ texts.length) (parsed : Parse texts trees)
    (noUnion : ∀ tree ∈ trees, ∀ left right, tree ≠ .union left right) :
    ∃ left right, parse ("|".intercalate texts) = .ok (.union left right) ∧
      (union left right).alternatives = trees := by
  obtain ⟨pieces, written, rfl⟩ := exists_pieces parsed fun tree member text parses =>
    exists_intersectionSyntax_of_parse parses (noUnion tree member)
  rw [parsed.length_eq, List.length_map] at several
  obtain ⟨found, rfl⟩ := exists_unionSyntax_of_pieces
    (List.ne_nil_of_length_pos (Nat.lt_of_lt_of_le Nat.two_pos several))
  have joined : Written found.tokens ("|".intercalate texts).toList := by
    rw [String.toList_intercalate, found.tokens_eq_intercalate]
    exact written_intercalate (.punctuation rfl) written
  cases found with
  | single only => exact absurd several (Nat.not_succ_le_self 1)
  | alternatives left right =>
      exact ⟨left.tree, right.tree, parse_of_written joined,
        (UnionSyntax.alternatives left right).alternatives_tree⟩

theorem exists_parse_intercalate_ampersand (several : 2 ≤ texts.length)
    (parsed : Parse texts trees)
    (noUnion : ∀ tree ∈ trees, ∀ left right, tree ≠ .union left right)
    (noIntersection : ∀ tree ∈ trees, ∀ left right, tree ≠ .intersection left right) :
    ∃ left right, parse ("&".intercalate texts) = .ok (.intersection left right) ∧
      (intersection left right).conjuncts = trees := by
  obtain ⟨pieces, written, rfl⟩ := exists_pieces parsed fun tree member text parses =>
    exists_operandSyntax_of_parse parses (noUnion tree member) (noIntersection tree member)
  rw [parsed.length_eq, List.length_map] at several
  obtain ⟨found, rfl⟩ := exists_intersectionSyntax_of_pieces
    (List.ne_nil_of_length_pos (Nat.lt_of_lt_of_le Nat.two_pos several))
  have joined : Written (UnionSyntax.single found).tokens ("&".intercalate texts).toList := by
    rw [String.toList_intercalate, UnionSyntax.tokens, found.tokens_eq_intercalate]
    exact written_intercalate (.punctuation rfl) written
  cases found with
  | single only => exact absurd several (Nat.not_succ_le_self 1)
  | both left right =>
      exact ⟨left.tree, right.tree, parse_of_written joined,
        (IntersectionSyntax.both left right).conjuncts_tree⟩

end TypeExpr

namespace Schema

open TypeExpr (Parse)

variable {texts : List String} {trees : List TypeExpr}

/-- Texts and their expressions have the same schemas, or the same first error. -/
theorem mapM_ofText (parsed : Parse texts trees) : texts.mapM ofText = trees.mapM ofTypeExpr := by
  induction parsed with
  | nil => rfl
  | cons first _ ih => rw [List.mapM_cons, List.mapM_cons, ofText_of_parse first, ih]

/-- The values of numbers are the numbers in order, with null for those out of range, and their
type is that of whole numbers exactly if all of them are whole. -/
theorem exists_ofNumbers (literals : List Decimal.Binary64) :
    ∃ name values, ofNumbers literals = { typeName := some name, enumeration := values } ∧
      List.Forall₂ EnumeratedAs literals values ∧
      (name = "integer" ∨ name = "number") ∧
      (name = "integer" ↔
        ∀ literal ∈ literals, ∃ number : Int, literal.rational? = some (number : ℚ)) := by
  refine ⟨if literals.all Decimal.Binary64.isIntegral then "integer" else "number", _, rfl,
    forall₂_enumeratedAs literals, ?_, ?_⟩
  · split <;> simp
  · simp only [← Decimal.Binary64.isIntegral_iff, ← List.all_eq_true]
    cases literals.all Decimal.Binary64.isIntegral <;> decide

/-- Texts of expressions that are no unions, joined by bars, have an enumeration as their schema if
all of them are string literals or all of them are number literals, and otherwise the list of
their schemas or the first error; and joined by ampersands they have that list, if they are
no intersections either.  The values of number literals are their numbers, apart from null for
each one that is out of range. -/
theorem ofText_intercalate (several : 2 ≤ texts.length) (parsed : Parse texts trees)
    (noUnion : ∀ tree ∈ trees, ∀ left right, tree ≠ .union left right) :
    (∀ literals : List String, trees = literals.map .string →
      ofText ("|".intercalate texts) =
        .ok { typeName := some "string", enumeration := literals.map .string }) ∧
    (∀ literals : List Decimal.Binary64, trees = literals.map .number →
      ∃ name values, ofText ("|".intercalate texts) =
          .ok { typeName := some name, enumeration := values } ∧
        List.Forall₂ EnumeratedAs literals values ∧
        (name = "integer" ∨ name = "number") ∧
        (name = "integer" ↔
          ∀ literal ∈ literals, ∃ number : Int, literal.rational? = some (number : ℚ))) ∧
    ((∀ literals : List String, trees ≠ literals.map .string) →
      (∀ literals : List Decimal.Binary64, trees ≠ literals.map .number) →
      ofText ("|".intercalate texts) =
        (texts.mapM ofText).map fun schemas => { oneOf := schemas }) ∧
    ((∀ tree ∈ trees, ∀ left right, tree ≠ .intersection left right) →
      ofText ("&".intercalate texts) = (texts.mapM ofText).map fun schemas =>
        { typeName := some "object", allOf := schemas }) := by
  obtain ⟨left, right, parse, chain⟩ :=
    TypeExpr.exists_parse_intercalate_pipe several parsed noUnion
  rw [ofText_of_parse parse, mapM_ofText parsed]
  refine ⟨fun literals strings => ?_, fun literals numbers => ?_,
    fun noStrings noNumbers => ?_, fun noIntersection => ?_⟩
  · exact ofTypeExpr_union_of_strings (chain.trans strings)
  · obtain ⟨name, values, schema, numbersInOrder, numeric, whole⟩ := exists_ofNumbers literals
    rw [ofTypeExpr_union_of_numbers (chain.trans numbers), schema]
    exact ⟨name, values, rfl, numbersInOrder, numeric, whole⟩
  · rw [ofTypeExpr_union_of_mixed (chain ▸ noStrings) (chain ▸ noNumbers), chain]
  · obtain ⟨left, right, parse, chain⟩ :=
      TypeExpr.exists_parse_intercalate_ampersand several parsed noUnion noIntersection
    rw [ofText_of_parse parse, ofTypeExpr_intersection, chain]

/-- The bar between the quotes does not separate. -/
theorem ofText_intercalate_quotedBar :
    ofText "'a|b'|Pet" = .ok { oneOf := [ofStrings ["a|b"], ofName "Pet"] } ∧
      ofText "'a|b'&Pet" =
        .ok { typeName := some "object", allOf := [ofStrings ["a|b"], ofName "Pet"] } := by
  have quoted : TypeExpr.parse "'a|b'" = .ok (.string "a|b") :=
    TypeExpr.parse_of_tokens
      (by decide +kernel : TypeExpr.tokens "'a|b'".toList = .ok [(0, .quoted "a|b")])
      (TypeExpr.readTokens_eq_ok_iff_exists.mpr
        ⟨.single (.single (.suffixed (.atom (.quoted "a|b")) [])), rfl, rfl⟩)
  have name : TypeExpr.parse "Pet" = .ok (.name "Pet") :=
    TypeExpr.parse_of_isWord (by decide : TypeExpr.isWord "Pet".toList = true)
  have parsed : Parse ["'a|b'", "Pet"] [.string "a|b", .name "Pet"] :=
    .cons quoted (.cons name .nil)
  have schemas : ["'a|b'", "Pet"].mapM ofText = .ok [ofStrings ["a|b"], ofName "Pet"] := by
    rw [mapM_ofText parsed]
    simp only [List.mapM_cons, ofTypeExpr]
    rfl
  have several : 2 ≤ ["'a|b'", "Pet"].length := by decide
  obtain ⟨-, -, alternatives, conjuncts⟩ := ofText_intercalate several parsed (by simp)
  rw [schemas] at alternatives conjuncts
  refine ⟨alternatives ?_ ?_, conjuncts (by simp)⟩
  · rintro (_ | ⟨first, _ | ⟨second, rest⟩⟩) same <;> cases same
  · rintro (_ | ⟨first, rest⟩) same <;> cases same

/-- The first number is out of range, so that the enumeration has null where it should have the
number. -/
theorem ofText_intercalate_overflow :
    ∃ literals : List Decimal.Binary64, Parse ["1e400", "2"] (literals.map .number) ∧
      ∃ schema, ofText "1e400|2" = .ok schema ∧ schema.typeName = some "number" ∧
        schema.enumeration = [.null, .whole 2] ∧
        ¬List.Forall₂ Represents literals schema.enumeration := by
  have parsed : Parse ["1e400", "2"]
      ([.infinity false, ⟨0x4000000000000000⟩].map .number) :=
    .cons (parse_of_number (by decide +kernel)) (.cons (parse_of_number (by decide +kernel)) .nil)
  have several : 2 ≤ ["1e400", "2"].length := by decide
  obtain ⟨left, right, parse, chain⟩ :=
    TypeExpr.exists_parse_intercalate_pipe several parsed (by simp)
  have converts := (ofText_of_parse parse).trans (ofTypeExpr_union_of_numbers chain)
  refine ⟨_, parsed, _, converts, rfl, rfl, ?_⟩
  rintro (_ | ⟨first, -⟩)
  cases first

end Schema

end ApiAssembly
