import ApiAssembly.Proofs.TypeExpr.Reaching
import ApiAssembly.Proofs.TypeExpr.RoundTrip

/-!
# Chains in derivations

A derivation of alternatives is cut at its bars into pieces, and the alternatives of its tree are
the trees of these pieces, since none of them is a union itself; and so are the derivations of
intersections cut at their ampersands.  Every term of an expression that is read from a text, with
a chain as one expression, has a derivation whose tokens stand side by side in the text, and in a
piece of a chain nothing that is held together as loosely as the chain stands outside brackets.
-/

namespace ApiAssembly.TypeExpr

/-- The pieces of alternatives between the bars. -/
def UnionSyntax.pieces : UnionSyntax → List IntersectionSyntax
  | .single only => [only]
  | .alternatives left right => left :: right.pieces

/-- The pieces of an intersection between the ampersands. -/
def IntersectionSyntax.pieces : IntersectionSyntax → List OperandSyntax
  | .single only => [only]
  | .both left right => left :: right.pieces

theorem UnionSyntax.pieces_ne_nil (found : UnionSyntax) : found.pieces ≠ [] := by
  cases found <;> exact List.cons_ne_nil _ _

theorem IntersectionSyntax.pieces_ne_nil (found : IntersectionSyntax) : found.pieces ≠ [] := by
  cases found <;> exact List.cons_ne_nil _ _

theorem alternatives_ne_nil (tree : TypeExpr) : tree.alternatives ≠ [] := by
  fun_cases alternatives tree <;> exact List.cons_ne_nil _ _

theorem conjuncts_ne_nil (tree : TypeExpr) : tree.conjuncts ≠ [] := by
  fun_cases conjuncts tree <;> exact List.cons_ne_nil _ _

theorem two_le_length_alternatives (left right : TypeExpr) :
    2 ≤ (union left right).alternatives.length := by
  rw [alternatives, List.length_cons]
  exact Nat.succ_le_succ (List.length_pos_of_ne_nil right.alternatives_ne_nil)

theorem two_le_length_conjuncts (left right : TypeExpr) :
    2 ≤ (intersection left right).conjuncts.length := by
  rw [conjuncts, List.length_cons]
  exact Nat.succ_le_succ (List.length_pos_of_ne_nil right.conjuncts_ne_nil)

/-- Lists of tokens with a separator between them, from the first one on. -/
theorem intercalate_cons_of_ne_nil (separator : Token) (first : List Token)
    {others : List (List Token)} (nonempty : others ≠ []) :
    [separator].intercalate (first :: others) =
      first ++ separator :: [separator].intercalate others := by
  obtain ⟨second, rest, rfl⟩ := List.exists_cons_of_ne_nil nonempty
  rw [List.intercalate_cons_cons, List.append_assoc, List.singleton_append]

theorem UnionSyntax.tokens_eq_intercalate (found : UnionSyntax) :
    found.tokens = [Token.pipe].intercalate (found.pieces.map IntersectionSyntax.tokens) := by
  cases found with
  | single only => rw [pieces, List.map_singleton, List.intercalate_singleton, UnionSyntax.tokens]
  | alternatives left right =>
      rw [pieces, List.map_cons, intercalate_cons_of_ne_nil _ _ (by simp [right.pieces_ne_nil]),
        ← right.tokens_eq_intercalate, UnionSyntax.tokens]

theorem IntersectionSyntax.tokens_eq_intercalate (found : IntersectionSyntax) :
    found.tokens = [Token.ampersand].intercalate (found.pieces.map OperandSyntax.tokens) := by
  cases found with
  | single only =>
      rw [pieces, List.map_singleton, List.intercalate_singleton, IntersectionSyntax.tokens]
  | both left right =>
      rw [pieces, List.map_cons, intercalate_cons_of_ne_nil _ _ (by simp [right.pieces_ne_nil]),
        ← right.tokens_eq_intercalate, IntersectionSyntax.tokens]

theorem exists_unionSyntax_of_pieces {pieces : List IntersectionSyntax} (nonempty : pieces ≠ []) :
    ∃ found : UnionSyntax, found.pieces = pieces := by
  induction pieces with
  | nil => exact absurd rfl nonempty
  | cons piece pieces ih =>
      cases pieces with
      | nil => exact ⟨.single piece, rfl⟩
      | cons next others =>
          obtain ⟨found, same⟩ := ih (List.cons_ne_nil _ _)
          exact ⟨.alternatives piece found, by rw [UnionSyntax.pieces, same]⟩

theorem exists_intersectionSyntax_of_pieces {pieces : List OperandSyntax} (nonempty : pieces ≠ []) :
    ∃ found : IntersectionSyntax, found.pieces = pieces := by
  induction pieces with
  | nil => exact absurd rfl nonempty
  | cons piece pieces ih =>
      cases pieces with
      | nil => exact ⟨.single piece, rfl⟩
      | cons next others =>
          obtain ⟨found, same⟩ := ih (List.cons_ne_nil _ _)
          exact ⟨.both piece found, by rw [IntersectionSyntax.pieces, same]⟩

section Levels

theorem PrimarySyntax.three_le_level (found : PrimarySyntax) : 3 ≤ found.tree.level := by
  cases found with
  | atom single => cases single <;> exact Nat.le_refl 3
  | generic _ _ _ | parenthesis _ | record _ => exact Nat.le_refl 3

theorem OperandSyntax.two_le_level (found : OperandSyntax) : 2 ≤ found.tree.level := by
  cases found with
  | marked mark inner => cases mark <;> exact Nat.le_refl 2
  | suffixed primary marks =>
      cases marks using List.reverseRecOn with
      | nil => exact Nat.le_of_succ_le primary.three_le_level
      | append_singleton marks mark =>
          rw [OperandSyntax.tree, List.foldl_append]
          cases mark <;> exact Nat.le_succ 2

theorem IntersectionSyntax.one_le_level (found : IntersectionSyntax) : 1 ≤ found.tree.level := by
  cases found with
  | single only => exact Nat.le_of_succ_le only.two_le_level
  | both _ _ => exact Nat.le_refl 1

variable {tree : TypeExpr}

theorem alternatives_of_one_le_level (above : 1 ≤ tree.level) : tree.alternatives = [tree] := by
  cases tree with
  | union => exact absurd above (Nat.not_succ_le_zero 0)
  | _ => rfl

theorem conjuncts_of_two_le_level (above : 2 ≤ tree.level) : tree.conjuncts = [tree] := by
  cases tree with
  | intersection => exact absurd above (Nat.not_succ_le_self 1)
  | _ => rfl

theorem UnionSyntax.alternatives_tree (found : UnionSyntax) :
    found.tree.alternatives = found.pieces.map IntersectionSyntax.tree := by
  cases found with
  | single only => exact alternatives_of_one_le_level only.one_le_level
  | alternatives left right =>
      rw [UnionSyntax.tree, TypeExpr.alternatives, right.alternatives_tree, pieces, List.map_cons]

theorem IntersectionSyntax.conjuncts_tree (found : IntersectionSyntax) :
    found.tree.conjuncts = found.pieces.map OperandSyntax.tree := by
  cases found with
  | single only => exact conjuncts_of_two_le_level only.two_le_level
  | both left right =>
      rw [IntersectionSyntax.tree, conjuncts, right.conjuncts_tree, pieces, List.map_cons]

end Levels

/-- The expressions that an expression consists of, a chain of all of its links. -/
def terms : TypeExpr → List TypeExpr
  | .union left right => (union left right).alternatives
  | .intersection left right => (intersection left right).conjuncts
  | other => other.operands

section Derivations

variable {tokens others : List Token} {tree operand part : TypeExpr}

/-- A tree has a derivation whose tokens stand side by side among others. -/
def DerivedIn (tokens : List Token) (tree : TypeExpr) : Prop :=
  ∃ found : UnionSyntax, found.tokens <:+: tokens ∧ found.tree = tree

theorem DerivedIn.widen (derived : DerivedIn tokens tree) (inside : tokens <:+: others) :
    DerivedIn others tree := by
  obtain ⟨found, within, stands⟩ := derived
  exact ⟨found, within.trans inside, stands⟩

theorem UnionSyntax.derivedIn (found : UnionSyntax) : DerivedIn found.tokens found.tree :=
  ⟨found, List.infix_refl _, rfl⟩

theorem UnionSyntax.infix_of_mem_pieces (found : UnionSyntax) {piece : IntersectionSyntax}
    (member : piece ∈ found.pieces) : piece.tokens <:+: found.tokens := by
  match found with
  | .single only =>
      obtain rfl := List.mem_singleton.mp member
      exact List.infix_refl _
  | .alternatives left right =>
      rcases List.mem_cons.mp member with rfl | later
      · exact (List.prefix_append _ _).isInfix
      · refine (right.infix_of_mem_pieces later).trans (List.IsSuffix.isInfix ?_)
        exact (List.suffix_cons _ _).trans (List.suffix_append _ _)

theorem IntersectionSyntax.infix_of_mem_pieces (found : IntersectionSyntax)
    {piece : OperandSyntax} (member : piece ∈ found.pieces) : piece.tokens <:+: found.tokens := by
  match found with
  | .single only =>
      obtain rfl := List.mem_singleton.mp member
      exact List.infix_refl _
  | .both left right =>
      rcases List.mem_cons.mp member with rfl | later
      · exact (List.prefix_append _ _).isInfix
      · refine (right.infix_of_mem_pieces later).trans (List.IsSuffix.isInfix ?_)
        exact (List.suffix_cons _ _).trans (List.suffix_append _ _)

theorem ArgumentsSyntax.derivedIn_of_mem_trees (found : ArgumentsSyntax)
    (member : tree ∈ found.trees) : DerivedIn found.tokens tree := by
  match found with
  | .last argument =>
      obtain rfl := List.mem_singleton.mp member
      exact argument.derivedIn
  | .more argument others =>
      rcases List.mem_cons.mp member with rfl | later
      · exact argument.derivedIn.widen (List.prefix_append _ _).isInfix
      · refine (others.derivedIn_of_mem_trees later).widen (List.IsSuffix.isInfix ?_)
        exact (List.suffix_cons _ _).trans (List.suffix_append _ _)

theorem EntriesSyntax.derivedIn_of_mem_trees (found : EntriesSyntax) {entry : String × TypeExpr}
    (member : entry ∈ found.trees) : DerivedIn found.tokens entry.2 := by
  match found with
  | .none => cases member
  | .last key value =>
      obtain rfl := List.mem_singleton.mp member
      exact value.derivedIn.widen ⟨[key.token, .colon], [], by simp [EntriesSyntax.tokens]⟩
  | .more key value others =>
      rcases List.mem_cons.mp member with rfl | later
      · exact value.derivedIn.widen
          ⟨[key.token, .colon], .comma :: others.tokens, by simp [EntriesSyntax.tokens]⟩
      · refine (others.derivedIn_of_mem_trees later).widen (List.IsSuffix.isInfix ?_)
        exact (List.suffix_cons _ _).trans (List.suffix_append _ _)

theorem PrimarySyntax.derivedIn_of_mem_operands (found : PrimarySyntax)
    (member : operand ∈ found.tree.operands) : DerivedIn found.tokens operand := by
  match found with
  | .atom single => cases single <;> cases member
  | .generic subject dotted arguments =>
      refine (arguments.derivedIn_of_mem_trees member).widen ?_
      exact ⟨.word subject :: (if dotted then [.dot] else []) ++ [.less], [.greater],
        by simp [PrimarySyntax.tokens]⟩
  | .parenthesis inner =>
      obtain rfl := List.mem_singleton.mp member
      exact inner.derivedIn.widen
        ⟨[.leftParenthesis], [.rightParenthesis], by simp [PrimarySyntax.tokens]⟩
  | .record entries =>
      obtain ⟨entry, among, rfl⟩ := List.mem_map.mp member
      exact (entries.derivedIn_of_mem_trees among).widen
        ⟨[.leftBrace], [.rightBrace], by simp [PrimarySyntax.tokens]⟩

theorem OperandSyntax.derivedIn_of_mem_operands (found : OperandSyntax)
    (member : operand ∈ found.tree.operands) : DerivedIn found.tokens operand := by
  match found with
  | .marked mark inner =>
      have same : operand = inner.tree := by
        cases mark <;> exact List.mem_singleton.mp member
      exact ⟨.single (.single inner), (List.suffix_cons _ _).isInfix, same.symm⟩
  | .suffixed primary marks =>
      cases marks using List.reverseRecOn with
      | nil =>
          exact (primary.derivedIn_of_mem_operands member).widen
            (List.prefix_append _ _).isInfix
      | append_singleton marks mark =>
          rw [OperandSyntax.tree, List.foldl_append] at member
          have same : operand = marks.foldl Suffix.apply primary.tree := by
            cases mark <;> exact List.mem_singleton.mp member
          refine ⟨.single (.single (.suffixed primary marks)), ?_, same.symm⟩
          exact ⟨[], mark.tokens, by
            simp [UnionSyntax.tokens, IntersectionSyntax.tokens, OperandSyntax.tokens]⟩

theorem terms_of_two_le_level (above : 2 ≤ tree.level) : tree.terms = tree.operands := by
  cases tree with
  | union => exact absurd above (by simp [level])
  | intersection => exact absurd above (by simp [level])
  | _ => rfl

theorem IntersectionSyntax.derivedIn_of_mem_terms (found : IntersectionSyntax)
    (member : operand ∈ found.tree.terms) : DerivedIn found.tokens operand := by
  match found with
  | .single only =>
      rw [IntersectionSyntax.tree, terms_of_two_le_level only.two_le_level] at member
      exact only.derivedIn_of_mem_operands member
  | .both left right =>
      have inChain : operand ∈ (IntersectionSyntax.both left right).tree.conjuncts := member
      rw [IntersectionSyntax.conjuncts_tree] at inChain
      obtain ⟨piece, among, rfl⟩ := List.mem_map.mp inChain
      exact ⟨.single (.single piece), IntersectionSyntax.infix_of_mem_pieces _ among, rfl⟩

theorem UnionSyntax.derivedIn_of_mem_terms (found : UnionSyntax)
    (member : operand ∈ found.tree.terms) : DerivedIn found.tokens operand := by
  match found with
  | .single only => exact only.derivedIn_of_mem_terms member
  | .alternatives left right =>
      have inChain : operand ∈ (UnionSyntax.alternatives left right).tree.alternatives := member
      rw [UnionSyntax.alternatives_tree] at inChain
      obtain ⟨piece, among, rfl⟩ := List.mem_map.mp inChain
      exact ⟨.single piece, UnionSyntax.infix_of_mem_pieces _ among, rfl⟩

/-- Every term of a derivation has a derivation of its own within it. -/
theorem UnionSyntax.derivedIn_of_reached (found : UnionSyntax)
    (reached : part.Reached terms found.tree) : DerivedIn found.tokens part := by
  -- the derivation shrinks along with the tree, so it is not fixed in the induction
  generalize same : found.tree = whole at reached
  induction reached generalizing found with
  | self => exact ⟨found, List.infix_refl _, same⟩
  | inner member _ ih =>
      obtain ⟨inner, inside, stands⟩ := found.derivedIn_of_mem_terms (same ▸ member)
      exact (ih inner stands).widen inside

end Derivations

/-- An expression without the parentheses around it. -/
def bare : TypeExpr → TypeExpr
  | .parenthesis inner => inner.bare
  | other => other

theorem reached_bare (tree : TypeExpr) : tree.bare.Reached terms tree := by
  fun_induction bare tree with
  | case1 inner ih => exact .inner List.mem_cons_self ih
  | case2 other => exact .self

section Exposure

/-- The expressions below an expression that have no brackets around them. -/
def bareOperands : TypeExpr → List TypeExpr
  | .parenthesis _ | .record _ | .generic _ _ => []
  | other => other.operands

variable {operand part whole : TypeExpr}

theorem Canonical.of_mem_bareOperands (canonical : whole.Canonical)
    (member : operand ∈ whole.bareOperands) :
    operand.Canonical ∧ whole.level ≤ operand.level := by
  cases canonical with
  | @union left right above leftCanonical rightCanonical =>
      rcases List.mem_pair.mp member with rfl | rfl
      · exact ⟨leftCanonical, Nat.zero_le _⟩
      · exact ⟨rightCanonical, Nat.zero_le _⟩
  | @intersection left right leftAbove rightAbove leftCanonical rightCanonical =>
      rcases List.mem_pair.mp member with rfl | rfl
      · exact ⟨leftCanonical, Nat.le_of_succ_le leftAbove⟩
      · exact ⟨rightCanonical, rightAbove⟩
  | nullable above inner | notNullable above inner | optional above inner
  | variadic above inner =>
      obtain rfl := List.mem_singleton.mp member
      exact ⟨inner, above⟩
  | _ => cases member

/-- What stands outside brackets in a canonical tree is held together at least as tightly. -/
theorem Canonical.level_le_of_reached (canonical : whole.Canonical)
    (reached : part.Reached bareOperands whole) : whole.level ≤ part.level := by
  refine (reached.carry (fun middle => middle.Canonical ∧ whole.level ≤ middle.level)
    ⟨canonical, Nat.le_refl _⟩ ?_).2
  rintro middle ⟨middleCanonical, above⟩ operand member
  obtain ⟨operandCanonical, further⟩ := middleCanonical.of_mem_bareOperands member
  exact ⟨operandCanonical, above.trans further⟩

end Exposure

end ApiAssembly.TypeExpr
