import ApiAssembly.Proofs.TypeExpr.Derivation

/-!
# The grammar is unambiguous

Since the reader finds the end of every part of a derivation, two derivations of the same
tokens have parts of the same tokens, down to the leaves.  The main statement puts this
together with what the reader accepts.
-/

namespace ApiAssembly.TypeExpr

theorem Mark.token_injective : Function.Injective Mark.token := by
  intro first second same
  cases first <;> cases second <;> first | rfl | cases same

theorem Atom.token_injective : Function.Injective Atom.token := by
  intro first second same
  cases first <;> cases second <;> cases same <;> rfl

theorem Suffix.flatMap_tokens_injective :
    Function.Injective fun marks : List Suffix => marks.flatMap Suffix.tokens := by
  intro first second same
  induction first generalizing second with
  | nil =>
      cases second with
      | nil => rfl
      | cons mark marks => cases mark <;> simp [Suffix.tokens] at same
  | cons mark marks ih =>
      cases second with
      | nil => cases mark <;> simp [Suffix.tokens] at same
      | cons other others =>
          cases mark <;> cases other <;> simp [Suffix.tokens] at same
          · rw [ih same]
          · rw [ih same]

/-- A mark in front of an operand is no primary expression. -/
theorem not_isUnmarked_mark (mark : Mark) (inner : OperandSyntax) :
    ¬IsUnmarked mark.token inner.tokens := by
  rintro ⟨noBang, noEllipsis, noOperand⟩
  cases mark with
  | question =>
      have operand := inner.startsOperand_tokens []
      rw [List.append_nil, noOperand rfl] at operand
      cases operand
  | bang => exact noBang rfl
  | ellipsis => exact noEllipsis rfl

section Split

variable {α : Type} {reader : ∀ tokens : List Token, Parsed α tokens}
  {first second rest other more : List Token} {token : Token} {value otherValue : α}

/-- A reader that stops behind both of two parts at the front of the same tokens finds them
equal. -/
theorem Reads.split (reads : Reads (reader (first ++ rest)) value rest)
    (otherReads : Reads (reader (second ++ other)) otherValue other)
    (same : first ++ rest = second ++ other) : first = second ∧ rest = other := by
  rw [same] at reads
  obtain ⟨-, rfl⟩ := reads.unique otherReads
  exact ⟨List.append_cancel_right same, rfl⟩

theorem Reads.ne_append_cons (reads : Reads (reader (first ++ [])) value [])
    (otherReads : Reads (reader (second ++ token :: more)) otherValue (token :: more)) :
    first ≠ second ++ token :: more := by
  intro same
  have parts := reads.split otherReads (by rw [List.append_nil]; exact same)
  cases parts.2

theorem PrimarySyntax.split (first second : PrimarySyntax) (follows : Follows 3 rest)
    (otherFollows : Follows 3 other)
    (same : first.tokens ++ rest = second.tokens ++ other) :
    first.tokens = second.tokens ∧ rest = other := by
  obtain ⟨token, inner, start⟩ := first.exists_cons
  have written : first.tokens ++ rest = token :: (inner ++ rest) := by
    rw [start, List.cons_append]
  have reads := first.reads follows written
  obtain ⟨-, rfl⟩ := reads.unique (second.reads otherFollows (same.symm.trans written))
  exact ⟨List.append_cancel_right same, rfl⟩

/-- Tokens behind which the reader of a union stops do not extend one union to another. -/
theorem UnionSyntax.tokens_ne_append_cons {first second : UnionSyntax}
    (low : token.rank ≤ 0) : first.tokens ≠ second.tokens ++ token :: more :=
  (first.reads (follows_nil 0)).ne_append_cons (second.reads (follows_cons low more))

theorem IntersectionSyntax.tokens_ne_append_cons {first second : IntersectionSyntax}
    (low : token.rank ≤ 1) : first.tokens ≠ second.tokens ++ token :: more :=
  (first.reads (follows_nil 1)).ne_append_cons (second.reads (follows_cons low more))

theorem OperandSyntax.tokens_ne_append_cons {first second : OperandSyntax}
    (low : token.rank ≤ 2) : first.tokens ≠ second.tokens ++ token :: more :=
  (first.reads (follows_nil 2)).ne_append_cons (second.reads (follows_cons low more))

end Split

mutual

theorem UnionSyntax.eq_of_tokens_eq (first second : UnionSyntax)
    (same : first.tokens = second.tokens) : first = second := by
  match first, second with
  | .single only, .single other => rw [only.eq_of_tokens_eq other same]
  | .single only, .alternatives left right =>
      exact absurd same (IntersectionSyntax.tokens_ne_append_cons (by decide))
  | .alternatives left right, .single other =>
      exact absurd same.symm (IntersectionSyntax.tokens_ne_append_cons (by decide))
  | .alternatives left right, .alternatives otherLeft otherRight =>
      have parts := (left.reads (follows_cons (by decide) _)).split
        (otherLeft.reads (follows_cons (by decide) _)) same
      rw [left.eq_of_tokens_eq otherLeft parts.1,
        right.eq_of_tokens_eq otherRight (List.cons.inj parts.2).2]

theorem IntersectionSyntax.eq_of_tokens_eq (first second : IntersectionSyntax)
    (same : first.tokens = second.tokens) : first = second := by
  match first, second with
  | .single only, .single other => rw [only.eq_of_tokens_eq other same]
  | .single only, .both left right =>
      exact absurd same (OperandSyntax.tokens_ne_append_cons (by decide))
  | .both left right, .single other =>
      exact absurd same.symm (OperandSyntax.tokens_ne_append_cons (by decide))
  | .both left right, .both otherLeft otherRight =>
      have parts := (left.reads (follows_cons (by decide) _)).split
        (otherLeft.reads (follows_cons (by decide) _)) same
      rw [left.eq_of_tokens_eq otherLeft parts.1,
        right.eq_of_tokens_eq otherRight (List.cons.inj parts.2).2]

theorem OperandSyntax.eq_of_tokens_eq (first second : OperandSyntax)
    (same : first.tokens = second.tokens) : first = second := by
  match first, second with
  | .marked mark inner, .marked otherMark otherInner =>
      obtain ⟨sameMark, sameInner⟩ := List.cons.inj same
      rw [Mark.token_injective sameMark, inner.eq_of_tokens_eq otherInner sameInner]
  | .marked mark inner, .suffixed primary marks =>
      have behind := follows_flatMap_tokens (follows_nil 3) marks
      rw [List.append_nil] at behind
      exact absurd (primary.isUnmarked behind same.symm) (not_isUnmarked_mark mark inner)
  | .suffixed primary marks, .marked mark inner =>
      have behind := follows_flatMap_tokens (follows_nil 3) marks
      rw [List.append_nil] at behind
      exact absurd (primary.isUnmarked behind same) (not_isUnmarked_mark mark inner)
  | .suffixed primary marks, .suffixed other otherMarks =>
      have behind := fun marks => follows_flatMap_tokens (follows_nil 3) marks
      simp only [List.append_nil] at behind
      have parts := primary.split other (behind marks) (behind otherMarks) same
      rw [primary.eq_of_tokens_eq other parts.1, Suffix.flatMap_tokens_injective parts.2]

theorem PrimarySyntax.eq_of_tokens_eq (first second : PrimarySyntax)
    (same : first.tokens = second.tokens) : first = second := by
  match first, second with
  | .atom atom, .atom other =>
      rw [Atom.token_injective (List.cons.inj same).1]
  | .generic subject dotted arguments, .generic otherSubject otherDotted otherArguments =>
      have parts : subject = otherSubject ∧ dotted = otherDotted ∧
          arguments.tokens = otherArguments.tokens := by
        cases dotted <;> cases otherDotted <;> simp_all [PrimarySyntax.tokens]
      rw [parts.1, parts.2.1, arguments.eq_of_tokens_eq otherArguments parts.2.2]
  | .parenthesis inner, .parenthesis otherInner =>
      rw [inner.eq_of_tokens_eq otherInner (by simpa [PrimarySyntax.tokens] using same)]
  | .record entries, .record otherEntries =>
      rw [entries.eq_of_tokens_eq otherEntries (by simpa [PrimarySyntax.tokens] using same)]
  | .atom atom, .generic .. | .atom atom, .parenthesis _ | .atom atom, .record _ =>
      simp [PrimarySyntax.tokens] at same
  | .generic .., .atom atom | .parenthesis _, .atom atom | .record _, .atom atom =>
      simp [PrimarySyntax.tokens] at same
  | .generic .., .parenthesis _ | .generic .., .record _ | .parenthesis _, .generic ..
  | .parenthesis _, .record _ | .record _, .generic .. | .record _, .parenthesis _ =>
      simp [PrimarySyntax.tokens] at same

theorem ArgumentsSyntax.eq_of_tokens_eq (first second : ArgumentsSyntax)
    (same : first.tokens = second.tokens) : first = second := by
  match first, second with
  | .last argument, .last other => rw [argument.eq_of_tokens_eq other same]
  | .last argument, .more other others =>
      exact absurd same (UnionSyntax.tokens_ne_append_cons (by decide))
  | .more argument others, .last other =>
      exact absurd same.symm (UnionSyntax.tokens_ne_append_cons (by decide))
  | .more argument others, .more other otherOthers =>
      have parts := (argument.reads (follows_cons (by decide) _)).split
        (other.reads (follows_cons (by decide) _)) same
      rw [argument.eq_of_tokens_eq other parts.1,
        others.eq_of_tokens_eq otherOthers (List.cons.inj parts.2).2]

theorem EntriesSyntax.eq_of_tokens_eq (first second : EntriesSyntax)
    (same : first.tokens = second.tokens) : first = second := by
  match first, second with
  | .none, .none => rfl
  | .none, .last .. | .none, .more .. | .last .., .none | .more .., .none =>
      simp [EntriesSyntax.tokens] at same
  | .last key value, .last otherKey other =>
      simp only [EntriesSyntax.tokens, List.cons.injEq, true_and] at same
      rw [Key.token_injective same.1, value.eq_of_tokens_eq other same.2]
  | .last key value, .more otherKey other others =>
      simp only [EntriesSyntax.tokens, List.cons_append, List.cons.injEq, true_and] at same
      exact absurd same.2 (UnionSyntax.tokens_ne_append_cons (by decide))
  | .more key value others, .last otherKey other =>
      simp only [EntriesSyntax.tokens, List.cons_append, List.cons.injEq, true_and] at same
      exact absurd same.2.symm (UnionSyntax.tokens_ne_append_cons (by decide))
  | .more key value others, .more otherKey other otherOthers =>
      simp only [EntriesSyntax.tokens, List.cons_append, List.cons.injEq, true_and] at same
      have parts := (value.reads (follows_cons (by decide) _)).split
        (other.reads (follows_cons (by decide) _)) same.2
      rw [Key.token_injective same.1, value.eq_of_tokens_eq other parts.1,
        others.eq_of_tokens_eq otherOthers (List.cons.inj parts.2).2]

end

theorem readTokens_eq_ok_iff_reads {tokens : List Token} {tree : TypeExpr} :
    readTokens tokens = .ok tree ↔ Reads (readUnion tokens) tree [] := by
  cases tokens with
  | nil =>
      have nothing : ¬Reads (readUnion []) tree [] := fun reads => by
        simpa using reads.length_lt
      simp [readTokens, nothing, failAt]
  | cons token inner =>
      rw [readTokens, if_neg (by simp)]
      cases readUnion (token :: inner) with
      | error failure => simp
      | ok outcome =>
          obtain ⟨node, rest, shorter⟩ := outcome
          by_cases finished : rest = []
          · simp [finished]
          · simp [finished, failAt]

theorem readTokens_eq_ok_iff_exists {tokens : List Token} {tree : TypeExpr} :
    readTokens tokens = .ok tree ↔
      ∃ derivation : UnionSyntax, derivation.tokens = tokens ∧ derivation.tree = tree := by
  rw [readTokens_eq_ok_iff_reads]
  constructor
  · intro reads
    obtain ⟨derivation, written, stands⟩ := exists_union_of_reads reads
    exact ⟨derivation, by simpa using written, stands⟩
  · rintro ⟨derivation, rfl, rfl⟩
    have reads := derivation.reads (follows_nil 0)
    rw [List.append_nil] at reads
    exact reads

/-- All of the tokens are read as a tree exactly where the tree has a derivation from the
grammar with these tokens, and no tokens have two derivations. -/
theorem readTokens_decides_derivations :
    (∀ (tokens : List Token) (tree : TypeExpr), readTokens tokens = .ok tree ↔
      ∃ derivation : UnionSyntax, derivation.tokens = tokens ∧ derivation.tree = tree) ∧
      Function.Injective UnionSyntax.tokens :=
  ⟨fun _ _ => readTokens_eq_ok_iff_exists, UnionSyntax.eq_of_tokens_eq⟩

end ApiAssembly.TypeExpr
