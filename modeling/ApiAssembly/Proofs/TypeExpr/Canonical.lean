import ApiAssembly.Proofs.TypeExpr.Lexing
import ApiAssembly.Proofs.TypeExpr.Syntax

/-!
# Canonical trees

The trees of type expressions that have a text, and the tokens that they are written with.
A tree is canonical if each of its parts can stand where it stands without parentheses of
its own.  The main statements are that the tokens of a canonical tree have a derivation
that stands for the tree, and that each of them has a spelling.
-/

namespace ApiAssembly.TypeExpr

open Decimal (Binary64)

/-- How tightly a tree is held together: alternatives least, then intersections, then what
has a mark in front, and everything else most. -/
def level : TypeExpr → Nat
  | .union .. => 0
  | .intersection .. => 1
  | .nullable _ | .notNullable _ | .variadic _ => 2
  | _ => 3

/-- The trees that have a text: names are words, numbers have a literal, types that a
generic type is applied to exist, and every operand is held together more tightly than its
place in the tree could pull it apart. -/
inductive Canonical : TypeExpr → Prop
  | name {name : String} : isWord name.toList = true → Canonical (.name name)
  | number {value : Binary64} {literal : List Char} :
      Spells (.number value) literal → Canonical (.number value)
  | string {value : String} : Canonical (.string value)
  | union {left right : TypeExpr} :
      1 ≤ left.level → Canonical left → Canonical right → Canonical (.union left right)
  | intersection {left right : TypeExpr} :
      2 ≤ left.level → 1 ≤ right.level → Canonical left → Canonical right →
        Canonical (.intersection left right)
  | parenthesis {inner : TypeExpr} : Canonical inner → Canonical (.parenthesis inner)
  | any : Canonical .any
  | unknown : Canonical .unknown
  | record {entries : List (String × TypeExpr)} :
      (∀ entry ∈ entries, Canonical entry.2) → Canonical (.record entries)
  | generic {subject : String} {objects : List TypeExpr} :
      isWord subject.toList = true → objects ≠ [] → (∀ object ∈ objects, Canonical object) →
        Canonical (.generic subject objects)
  | nullable {inner : TypeExpr} :
      2 ≤ inner.level → Canonical inner → Canonical (.nullable inner)
  | notNullable {inner : TypeExpr} :
      2 ≤ inner.level → Canonical inner → Canonical (.notNullable inner)
  | optional {inner : TypeExpr} :
      3 ≤ inner.level → Canonical inner → Canonical (.optional inner)
  | variadic {inner : TypeExpr} :
      2 ≤ inner.level → Canonical inner → Canonical (.variadic inner)

mutual

/-- The tokens that a tree is written with.  Generic types are written with angle brackets,
and the keys of records between quotes. -/
def rendered : TypeExpr → List Token
  | .name text => [.word text]
  | .number value => [.number value]
  | .string text => [.quoted text]
  | .union left right => left.rendered ++ .pipe :: right.rendered
  | .intersection left right => left.rendered ++ .ampersand :: right.rendered
  | .parenthesis inner => .leftParenthesis :: inner.rendered ++ [.rightParenthesis]
  | .any => [.star]
  | .unknown => [.question]
  | .record entries => .leftBrace :: renderedEntries entries ++ [.rightBrace]
  | .generic subject objects =>
    .word subject :: .less :: renderedObjects objects ++ [.greater]
  | .nullable inner => .question :: inner.rendered
  | .notNullable inner => .bang :: inner.rendered
  | .optional inner => inner.rendered ++ [.equals]
  | .variadic inner => .ellipsis :: inner.rendered

def renderedObjects : List TypeExpr → List Token
  | [] => []
  | [object] => object.rendered
  | object :: others => object.rendered ++ .comma :: renderedObjects others

def renderedEntries : List (String × TypeExpr) → List Token
  | [] => []
  | [(key, value)] => .quoted key :: .colon :: value.rendered
  | (key, value) :: others =>
    .quoted key :: .colon :: value.rendered ++ .comma :: renderedEntries others

end

/-- Whether tokens have a derivation that stands for a tree at a level. -/
def Derivable (tokens : List Token) (tree : TypeExpr) : Nat → Prop
  | 0 => ∃ found : UnionSyntax, found.tokens = tokens ∧ found.tree = tree
  | 1 => ∃ found : IntersectionSyntax, found.tokens = tokens ∧ found.tree = tree
  | 2 => ∃ found : OperandSyntax, found.tokens = tokens ∧ found.tree = tree
  | _ => ∃ primary marks, (OperandSyntax.suffixed primary marks).tokens = tokens ∧
      (OperandSyntax.suffixed primary marks).tree = tree

variable {tree : TypeExpr} {tokens : List Token}

theorem Derivable.pred {level : Nat} (derivable : Derivable tokens tree (level + 1)) :
    Derivable tokens tree level := by
  match level, derivable with
  | 0, ⟨found, written, stands⟩ => exact ⟨.single found, written, stands⟩
  | 1, ⟨found, written, stands⟩ => exact ⟨.single found, written, stands⟩
  | 2, ⟨primary, marks, written, stands⟩ =>
      exact ⟨.suffixed primary marks, written, stands⟩
  | _ + 3, derivable => exact derivable

theorem Derivable.mono {lower upper : Nat} (below : lower ≤ upper)
    (derivable : Derivable tokens tree upper) : Derivable tokens tree lower := by
  induction below with
  | refl => exact derivable
  | step _ ih => exact ih derivable.pred

theorem exists_arguments {objects : List TypeExpr} (nonempty : objects ≠ [])
    (derivable : ∀ object ∈ objects, Derivable object.rendered object 0) :
    ∃ arguments : ArgumentsSyntax,
      arguments.tokens = renderedObjects objects ∧ arguments.trees = objects := by
  induction objects with
  | nil => exact absurd rfl nonempty
  | cons object others ih =>
      obtain ⟨first, written, stands⟩ := derivable object List.mem_cons_self
      cases others with
      | nil =>
          refine ⟨.last first, ?_, ?_⟩
          · rw [renderedObjects, ArgumentsSyntax.tokens, written]
          · rw [ArgumentsSyntax.trees, stands]
      | cons next more =>
          obtain ⟨arguments, writtenOthers, standOthers⟩ := ih (by simp)
            fun object member => derivable object (List.mem_cons_of_mem _ member)
          refine ⟨.more first arguments, ?_, ?_⟩
          · rw [renderedObjects, ArgumentsSyntax.tokens, written, writtenOthers]
            simp
          · rw [ArgumentsSyntax.trees, stands, standOthers]

theorem exists_entries {entries : List (String × TypeExpr)}
    (derivable : ∀ entry ∈ entries, Derivable entry.2.rendered entry.2 0) :
    ∃ found : EntriesSyntax,
      found.tokens = renderedEntries entries ∧ found.trees = entries := by
  induction entries with
  | nil => exact ⟨.none, rfl, rfl⟩
  | cons entry others ih =>
      obtain ⟨first, written, stands⟩ := derivable entry List.mem_cons_self
      obtain ⟨key, value⟩ := entry
      dsimp only at written stands
      cases others with
      | nil =>
          refine ⟨.last (.quoted key) first, ?_, ?_⟩
          · rw [renderedEntries, EntriesSyntax.tokens, Key.token, written]
          · rw [EntriesSyntax.trees, Key.name, stands]
      | cons next more =>
          obtain ⟨found, writtenOthers, standOthers⟩ := ih
            fun entry member => derivable entry (List.mem_cons_of_mem _ member)
          refine ⟨.more (.quoted key) first found, ?_, ?_⟩
          · rw [renderedEntries, EntriesSyntax.tokens, Key.token, written, writtenOthers]
            simp
          · rw [EntriesSyntax.trees, Key.name, stands, standOthers]

/-- A mark in front of an operand. -/
theorem derivable_marked (mark : Mark) (derivable : Derivable tokens tree 2) :
    Derivable (mark.token :: tokens) (mark.apply tree) 2 := by
  obtain ⟨inner, rfl, rfl⟩ := derivable
  exact ⟨.marked mark inner, rfl, rfl⟩

theorem derivable_atom (atom : Atom) : Derivable [atom.token] atom.tree 3 :=
  ⟨.atom atom, [], rfl, rfl⟩

/-- The tokens that a canonical tree is written with have a derivation that stands for it. -/
theorem Canonical.derivable (canonical : Canonical tree) :
    Derivable tree.rendered tree tree.level := by
  induction canonical with
  | @name name _ =>
      rw [rendered]
      exact derivable_atom (.word name)
  | @number value literal _ =>
      rw [rendered]
      exact derivable_atom (.number value)
  | @string value =>
      rw [rendered]
      exact derivable_atom (.quoted value)
  | any =>
      rw [rendered]
      exact derivable_atom .star
  | unknown =>
      rw [rendered]
      exact derivable_atom .question
  | union above _ _ leftDerivable rightDerivable =>
      obtain ⟨left, leftWritten, rfl⟩ := leftDerivable.mono above
      obtain ⟨right, rightWritten, rfl⟩ := rightDerivable.mono (Nat.zero_le _)
      refine ⟨.alternatives left right, ?_, rfl⟩
      rw [UnionSyntax.tokens, leftWritten, rightWritten, rendered]
  | intersection leftAbove rightAbove _ _ leftDerivable rightDerivable =>
      obtain ⟨left, leftWritten, rfl⟩ := leftDerivable.mono leftAbove
      obtain ⟨right, rightWritten, rfl⟩ := rightDerivable.mono rightAbove
      refine ⟨.both left right, ?_, rfl⟩
      rw [IntersectionSyntax.tokens, leftWritten, rightWritten, rendered]
  | parenthesis _ derivable =>
      obtain ⟨inner, written, rfl⟩ := derivable.mono (Nat.zero_le _)
      refine ⟨.parenthesis inner, [], ?_, rfl⟩
      rw [OperandSyntax.tokens, PrimarySyntax.tokens, written, rendered, List.flatMap_nil,
        List.append_nil]
  | record _ derivable =>
      obtain ⟨entries, written, rfl⟩ := exists_entries fun entry member =>
        (derivable entry member).mono (Nat.zero_le _)
      refine ⟨.record entries, [], ?_, rfl⟩
      rw [OperandSyntax.tokens, PrimarySyntax.tokens, written, rendered, List.flatMap_nil,
        List.append_nil]
  | @generic subject _ _ nonempty _ derivable =>
      obtain ⟨arguments, written, rfl⟩ := exists_arguments nonempty fun object member =>
        (derivable object member).mono (Nat.zero_le _)
      refine ⟨.generic subject false arguments, [], ?_, rfl⟩
      rw [OperandSyntax.tokens, PrimarySyntax.tokens, written, rendered]
      simp
  | nullable above _ derivable =>
      rw [rendered]
      exact derivable_marked .question (derivable.mono above)
  | notNullable above _ derivable =>
      rw [rendered]
      exact derivable_marked .bang (derivable.mono above)
  | variadic above _ derivable =>
      rw [rendered]
      exact derivable_marked .ellipsis (derivable.mono above)
  | optional above _ derivable =>
      obtain ⟨primary, marks, written, rfl⟩ := derivable.mono above
      refine ⟨primary, marks ++ [.equals], ?_, ?_⟩
      · rw [rendered, ← written, OperandSyntax.tokens, OperandSyntax.tokens,
          List.flatMap_append, List.append_assoc]
        rfl
      · rw [OperandSyntax.tree, List.foldl_append]
        rfl

theorem spelled_renderedObjects {objects : List TypeExpr}
    (spelled : ∀ object ∈ objects, Spelled object.rendered) :
    Spelled (renderedObjects objects) := by
  induction objects with
  | nil =>
      rw [renderedObjects]
      exact List.forall_mem_nil _
  | cons object others ih =>
      have first := spelled object List.mem_cons_self
      cases others with
      | nil =>
          rw [renderedObjects]
          exact first
      | cons next more =>
          have rest := ih fun object member => spelled object (List.mem_cons_of_mem _ member)
          rw [renderedObjects, spelled_append, spelled_cons]
          · exact ⟨first, exists_spelling_of_isPunctuation rfl, rest⟩
          · exact List.cons_ne_nil next more

theorem spelled_renderedEntries {entries : List (String × TypeExpr)}
    (spelled : ∀ entry ∈ entries, Spelled entry.2.rendered) :
    Spelled (renderedEntries entries) := by
  induction entries with
  | nil =>
      rw [renderedEntries]
      exact List.forall_mem_nil _
  | cons entry others ih =>
      have first := spelled entry List.mem_cons_self
      obtain ⟨key, value⟩ := entry
      have colon := exists_spelling_of_isPunctuation (rfl : Token.isPunctuation .colon = true)
      cases others with
      | nil =>
          rw [renderedEntries, spelled_cons, spelled_cons]
          exact ⟨exists_spelling_quoted key, colon, first⟩
      | cons next more =>
          have rest := ih fun entry member => spelled entry (List.mem_cons_of_mem _ member)
          rw [renderedEntries, spelled_append, spelled_cons, spelled_cons, spelled_cons]
          · exact ⟨⟨exists_spelling_quoted key, colon, first⟩,
              exists_spelling_of_isPunctuation rfl, rest⟩
          · exact List.cons_ne_nil next more

/-- The tokens that a canonical tree is written with have spellings. -/
theorem Canonical.spelled (canonical : Canonical tree) : Spelled tree.rendered := by
  induction canonical with
  | name word =>
      rw [rendered, spelled_cons]
      exact ⟨exists_spelling_word word, List.forall_mem_nil _⟩
  | number spells =>
      rw [rendered, spelled_cons]
      exact ⟨⟨_, spells⟩, List.forall_mem_nil _⟩
  | @string value =>
      rw [rendered, spelled_cons]
      exact ⟨exists_spelling_quoted value, List.forall_mem_nil _⟩
  | any =>
      rw [rendered]
      exact spelled_punctuation rfl
  | unknown =>
      rw [rendered]
      exact spelled_punctuation rfl
  | union _ _ _ left right =>
      rw [rendered, spelled_append, spelled_cons]
      exact ⟨left, exists_spelling_of_isPunctuation rfl, right⟩
  | intersection _ _ _ _ left right =>
      rw [rendered, spelled_append, spelled_cons]
      exact ⟨left, exists_spelling_of_isPunctuation rfl, right⟩
  | parenthesis _ inner =>
      rw [rendered, List.cons_append, spelled_cons, spelled_append]
      exact ⟨exists_spelling_of_isPunctuation rfl, inner, spelled_punctuation rfl⟩
  | record _ inner =>
      rw [rendered, List.cons_append, spelled_cons, spelled_append]
      exact ⟨exists_spelling_of_isPunctuation rfl, spelled_renderedEntries inner,
        spelled_punctuation rfl⟩
  | generic word _ _ inner =>
      rw [rendered, List.cons_append, List.cons_append, spelled_cons, spelled_cons,
        spelled_append]
      exact ⟨exists_spelling_word word, exists_spelling_of_isPunctuation rfl,
        spelled_renderedObjects inner, spelled_punctuation rfl⟩
  | nullable _ _ inner =>
      rw [rendered, spelled_cons]
      exact ⟨exists_spelling_of_isPunctuation rfl, inner⟩
  | notNullable _ _ inner =>
      rw [rendered, spelled_cons]
      exact ⟨exists_spelling_of_isPunctuation rfl, inner⟩
  | optional _ _ inner =>
      rw [rendered, spelled_append]
      exact ⟨inner, spelled_punctuation rfl⟩
  | variadic _ _ inner =>
      rw [rendered, spelled_cons]
      exact ⟨⟨_, .ellipsis⟩, inner⟩

end ApiAssembly.TypeExpr
