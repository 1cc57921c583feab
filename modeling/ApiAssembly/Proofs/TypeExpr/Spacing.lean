import ApiAssembly.Proofs.TypeExpr.Derivation
import ApiAssembly.Proofs.TypeExpr.Lexing

/-!
# Derivations written without blanks

No two neighbours in the tokens of a derivation could be run together: behind a word or a
number there is punctuation, except for the dot of a generic type, and that one has a
bracket behind it.
-/

namespace ApiAssembly.TypeExpr

variable {token : Token} {rest : List Token}

theorem isPunctuation_of_rank (low : token.rank ≤ 3) : token.isPunctuation = true := by
  cases token <;> simp_all [Token.rank, Token.isPunctuation]

theorem isChain_cons_of_always (always : ∀ next, token.Precedes next)
    (chain : rest.IsChain Token.Precedes) : (token :: rest).IsChain Token.Precedes :=
  List.isChain_cons.mpr ⟨fun next _ => always next, chain⟩

/-- Every token but the dot can stand where an expression ends. -/
theorem isChain_cons_of_follows (notDot : token ≠ .dot) (follows : Follows 3 rest)
    (chain : rest.IsChain Token.Precedes) : (token :: rest).IsChain Token.Precedes := by
  refine List.isChain_cons.mpr ⟨fun next member => ?_, chain⟩
  have punctuation := isPunctuation_of_rank (follows next member)
  cases token with
  | word name => exact Or.inl punctuation
  | number value => exact punctuation
  | dot => exact absurd rfl notDot
  | _ => trivial

theorem Atom.token_ne_dot (atom : Atom) : atom.token ≠ .dot := by
  cases atom <;> exact fun same => by cases same

theorem Mark.precedes (mark : Mark) (next : Token) : mark.token.Precedes next := by
  cases mark <;> trivial

theorem Key.precedes_colon (key : Key) : key.token.Precedes .colon := by
  cases key with
  | word name => exact Or.inl rfl
  | quoted text => trivial

/-- Tokens whose neighbours stay apart, also in front of whatever can follow an
expression. -/
def StaysApart (tokens : List Token) : Prop :=
  ∀ rest, Follows 3 rest → rest.IsChain Token.Precedes →
    (tokens ++ rest).IsChain Token.Precedes

variable {first second inner : List Token}

theorem staysApart_cons (always : ∀ next, token.Precedes next) (apart : StaysApart inner) :
    StaysApart (token :: inner) :=
  fun rest follows chain => isChain_cons_of_always always (apart rest follows chain)

theorem staysApart_separated {separator : Token} (low : separator.rank ≤ 3)
    (always : ∀ next, separator.Precedes next) (left : StaysApart first)
    (right : StaysApart second) : StaysApart (first ++ separator :: second) := by
  intro rest follows chain
  rw [List.append_assoc, List.cons_append]
  apply left _ (follows_cons low _)
  exact isChain_cons_of_always always (right rest follows chain)

theorem staysApart_closed {closing : Token} (low : closing.rank ≤ 3)
    (always : ∀ next, closing.Precedes next) (apart : StaysApart inner) :
    StaysApart (inner ++ [closing]) := by
  intro rest _ chain
  rw [List.append_assoc, List.singleton_append]
  exact apart _ (follows_cons low rest) (isChain_cons_of_always always chain)

theorem staysApart_key (key : Key) (apart : StaysApart inner) :
    StaysApart (key.token :: .colon :: inner) := by
  intro rest follows chain
  apply List.isChain_cons_cons.mpr ⟨key.precedes_colon, ?_⟩
  exact isChain_cons_of_always (fun _ => trivial) (apart rest follows chain)

/-- The dot of a generic type is the only one, and a bracket stands behind it. -/
theorem staysApart_subject (subject : String) (dotted : Bool) (apart : StaysApart inner) :
    StaysApart (.word subject :: (if dotted then [.dot] else []) ++ .less :: inner) := by
  intro rest follows chain
  have bracket : (Token.less :: (inner ++ rest)).IsChain Token.Precedes :=
    isChain_cons_of_always (fun _ => trivial) (apart rest follows chain)
  cases dotted with
  | false => exact List.isChain_cons_cons.mpr ⟨Or.inl rfl, bracket⟩
  | true =>
      have opens : Token.Precedes .dot .less := rfl
      have dot := List.isChain_cons_cons.mpr ⟨opens, bracket⟩
      exact List.isChain_cons_cons.mpr ⟨Or.inr rfl, dot⟩

theorem isChain_flatMap_append (marks : List Suffix) (chain : rest.IsChain Token.Precedes) :
    (marks.flatMap Suffix.tokens ++ rest).IsChain Token.Precedes := by
  induction marks with
  | nil => exact chain
  | cons mark marks ih =>
      cases mark with
      | brackets =>
          have behind : (Token.rightBracket :: (marks.flatMap Suffix.tokens ++ rest)).IsChain
              Token.Precedes := isChain_cons_of_always (fun _ => trivial) ih
          exact isChain_cons_of_always (fun _ => trivial) behind
      | equals => exact isChain_cons_of_always (fun _ => trivial) ih

mutual

theorem UnionSyntax.staysApart (found : UnionSyntax) : StaysApart found.tokens := by
  match found with
  | .single only => exact only.staysApart
  | .alternatives left right =>
      exact staysApart_separated (by decide) (fun _ => trivial) left.staysApart
        right.staysApart

theorem IntersectionSyntax.staysApart (found : IntersectionSyntax) :
    StaysApart found.tokens := by
  match found with
  | .single only => exact only.staysApart
  | .both left right =>
      exact staysApart_separated (by decide) (fun _ => trivial) left.staysApart
        right.staysApart

theorem OperandSyntax.staysApart (found : OperandSyntax) : StaysApart found.tokens := by
  match found with
  | .marked mark inner => exact staysApart_cons mark.precedes inner.staysApart
  | .suffixed primary marks =>
      intro rest follows chain
      rw [OperandSyntax.tokens, List.append_assoc]
      apply primary.staysApart _ (follows_flatMap_tokens follows marks)
      exact isChain_flatMap_append marks chain

theorem PrimarySyntax.staysApart (found : PrimarySyntax) : StaysApart found.tokens := by
  match found with
  | .atom atom =>
      exact fun rest follows chain => isChain_cons_of_follows atom.token_ne_dot follows chain
  | .generic subject dotted arguments =>
      have front := staysApart_subject subject dotted arguments.staysApart
      exact staysApart_closed (by decide) (fun _ => trivial) front
  | .parenthesis inner =>
      have front : StaysApart (.leftParenthesis :: inner.tokens) :=
        staysApart_cons (fun _ => trivial) inner.staysApart
      exact staysApart_closed (by decide) (fun _ => trivial) front
  | .record entries =>
      have front : StaysApart (.leftBrace :: entries.tokens) :=
        staysApart_cons (fun _ => trivial) entries.staysApart
      exact staysApart_closed (by decide) (fun _ => trivial) front

theorem ArgumentsSyntax.staysApart (found : ArgumentsSyntax) : StaysApart found.tokens := by
  match found with
  | .last argument => exact argument.staysApart
  | .more argument others =>
      exact staysApart_separated (by decide) (fun _ => trivial) argument.staysApart
        others.staysApart

theorem EntriesSyntax.staysApart (found : EntriesSyntax) : StaysApart found.tokens := by
  match found with
  | .none => exact fun _ _ chain => chain
  | .last key value => exact staysApart_key key value.staysApart
  | .more key value others =>
      exact staysApart_separated (by decide) (fun _ => trivial)
        (staysApart_key key value.staysApart) others.staysApart

end

/-- Neighbours in a derivation stay apart without blanks. -/
theorem UnionSyntax.isChain_tokens (found : UnionSyntax) :
    found.tokens.IsChain Token.Precedes := by
  have chain := found.staysApart [] (follows_nil 3) List.isChain_nil
  rw [List.append_nil] at chain
  exact chain

end ApiAssembly.TypeExpr
