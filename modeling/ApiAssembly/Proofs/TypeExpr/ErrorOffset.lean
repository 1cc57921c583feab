import ApiAssembly.Proofs.TypeExpr.Lexing
import ApiAssembly.Proofs.TypeExpr.Stuck
import ApiAssembly.TypeExpr.Parse

/-!
# The offset of an error

A text that is not a type expression is rejected at an offset between two of its characters.
The tokens of a text begin at such offsets, one behind the other, so the offset of a grammar
error tells the place at which the reader got stuck: the tokens that begin in front of it are
just those that can be completed.
-/

namespace ApiAssembly.TypeExpr

/-- Up to the given number of bytes the text can be cut between two characters. -/
def IsBoundary (text : List Char) (offset : Nat) : Prop :=
  ∃ front back, text = front ++ back ∧ offset = Text.byteLength front

theorem IsBoundary.le {text : List Char} {offset : Nat} (boundary : IsBoundary text offset) :
    offset ≤ Text.byteLength text := by
  obtain ⟨front, back, rfl, rfl⟩ := boundary
  rw [Text.byteLength_append]
  exact Nat.le_add_right _ _

theorem isBoundary_byteLength (text : List Char) : IsBoundary text (Text.byteLength text) :=
  ⟨text, [], (List.append_nil text).symm, rfl⟩

/-- Each token begins before the ones behind it. -/
def Ordered (located : List (Nat × Token)) : Prop :=
  located.Pairwise fun entry later => entry.1 < later.1

section Cutting

variable {whole front text : List Char} {located : List (Nat × Token)} {offset : Nat}

theorem byteLength_sub_of_ends (ends : whole = front ++ text) :
    Text.byteLength whole - Text.byteLength text = Text.byteLength front := by
  rw [ends, Text.byteLength_append, Nat.add_sub_cancel_right]

theorem byteLength_lt_of_ends {c : Char} (ends : whole = front ++ c :: text) :
    Text.byteLength front < Text.byteLength whole := by
  have positive := c.utf8Size_pos
  rw [ends, Text.byteLength_append, Text.byteLength_cons]
  omega

/-- The tokens of the end of a text begin in order at boundaries of the text, from its front
on. -/
theorem ordered_of_tokensWithin (ends : whole = front ++ text)
    (cut : tokensWithin (Text.byteLength whole) text = .ok located) :
    Ordered located ∧ ∀ entry ∈ located, Text.byteLength front ≤ entry.1 ∧
      entry.1 < Text.byteLength whole ∧ IsBoundary whole entry.1 := by
  fun_induction tokensWithin (Text.byteLength whole) text generalizing front located with
  | case1 =>
      cases cut
      exact ⟨.nil, List.forall_mem_nil _⟩
  | case2 c rest blank ih =>
      obtain ⟨ordered, placed⟩ := @ih (front ++ [c]) _ (by simpa using ends) cut
      refine ⟨ordered, fun entry member => ?_⟩
      obtain ⟨behind, inside⟩ := placed entry member
      rw [Text.byteLength_append] at behind
      exact ⟨Nat.le_trans (Nat.le_add_right _ _) behind, inside⟩
  | case3 => cases cut
  | case4 => cases cut
  | case5 c rest notBlank offset token after found others inner =>
      rename_i ih
      cases cut
      obtain ⟨spelling, spells, same⟩ := exists_spelling_of_firstToken found
      obtain ⟨first, more, rfl, -⟩ := spells.firstToken
      have start : offset = Text.byteLength front := byteLength_sub_of_ends ends
      have boundary : IsBoundary whole offset := ⟨front, c :: rest, ends, start⟩
      have short : offset < Text.byteLength whole := start ▸ byteLength_lt_of_ends ends
      rw [same] at ends
      obtain ⟨ordered, placed⟩ := ih (by rw [ends, List.append_assoc]) inner
      have below : offset < Text.byteLength (front ++ first :: more) :=
        start ▸ byteLength_lt_of_ends rfl
      refine ⟨List.pairwise_cons.mpr ⟨fun entry member => ?_, ordered⟩, ?_⟩
      · exact Nat.lt_of_lt_of_le below (placed entry member).1
      · refine List.forall_mem_cons.mpr ⟨⟨start.ge, short, boundary⟩, fun entry member => ?_⟩
        obtain ⟨behind, inside⟩ := placed entry member
        exact ⟨start ▸ Nat.le_trans (Nat.le_of_lt below) behind, inside⟩

/-- What is no token begins at a boundary of the text. -/
theorem isBoundary_of_tokensWithin {error : TokenError} (ends : whole = front ++ text)
    (failed : tokensWithin (Text.byteLength whole) text = .error (offset, error)) :
    IsBoundary whole offset := by
  fun_induction tokensWithin (Text.byteLength whole) text generalizing front with
  | case1 => cases failed
  | case2 c rest blank ih => exact @ih (front ++ [c]) (by simpa using ends) failed
  | case3 c rest notBlank start found =>
      obtain ⟨rfl, -⟩ := Prod.ext_iff.mp (Except.error.inj failed)
      exact ⟨front, c :: rest, ends, byteLength_sub_of_ends ends⟩
  | case4 c rest notBlank token after found fault inner ih =>
      cases failed
      obtain ⟨spelling, -, same⟩ := exists_spelling_of_firstToken found
      exact @ih (front ++ spelling) (by rw [ends, same, List.append_assoc]) inner
  | case5 => cases failed

end Cutting

section Placing

variable {front behind : List (Nat × Token)} {offset : Nat} {token : Token}

theorem Ordered.apart (ordered : Ordered (front ++ (offset, token) :: behind)) :
    (∀ entry ∈ front, entry.1 < offset) ∧ ∀ entry ∈ behind, offset < entry.1 := by
  obtain ⟨-, later, before⟩ := List.pairwise_append.mp ordered
  exact ⟨fun entry member => before entry member _ List.mem_cons_self,
    (List.pairwise_cons.mp later).1⟩

/-- The tokens that begin in front of a token are those in front of it. -/
theorem filter_lt_of_ordered (ordered : Ordered (front ++ (offset, token) :: behind)) :
    (front ++ (offset, token) :: behind).filter (fun entry => entry.1 < offset) = front := by
  obtain ⟨before, after⟩ := ordered.apart
  have kept : front.filter (fun entry => entry.1 < offset) = front :=
    List.filter_eq_self.mpr fun entry member => decide_eq_true (before entry member)
  have dropped : behind.filter (fun entry => entry.1 < offset) = [] :=
    List.filter_eq_nil_iff.mpr fun entry member =>
      mt of_decide_eq_true (Nat.not_lt.mpr (Nat.le_of_lt (after entry member)))
  rw [List.filter_append, kept, List.filter_cons_of_neg (by simp), dropped, List.append_nil]

theorem filter_le_of_ordered (ordered : Ordered (front ++ (offset, token) :: behind)) :
    (front ++ (offset, token) :: behind).filter (fun entry => entry.1 ≤ offset) =
      front ++ [(offset, token)] := by
  obtain ⟨before, after⟩ := ordered.apart
  have kept : front.filter (fun entry => entry.1 ≤ offset) = front :=
    List.filter_eq_self.mpr fun entry member =>
      decide_eq_true (Nat.le_of_lt (before entry member))
  have dropped : behind.filter (fun entry => entry.1 ≤ offset) = [] :=
    List.filter_eq_nil_iff.mpr fun entry member =>
      mt of_decide_eq_true (Nat.not_le.mpr (after entry member))
  rw [List.filter_append, kept, List.filter_cons_of_pos (by simp), dropped]

/-- No two tokens begin at the same offset. -/
theorem eq_of_mem_of_ordered {other : Token}
    (ordered : Ordered (front ++ (offset, token) :: behind))
    (member : (offset, other) ∈ front ++ (offset, token) :: behind) : other = token := by
  obtain ⟨before, after⟩ := ordered.apart
  rcases List.mem_append.mp member with early | late
  · exact absurd (before _ early) (Nat.lt_irrefl _)
  · rcases List.mem_cons.mp late with same | late
    · exact (Prod.ext_iff.mp same).2
    · exact absurd (after _ late) (Nat.lt_irrefl _)

theorem offsetFromEnd_append (textEnd : Nat) (front place : List (Nat × Token)) :
    offsetFromEnd textEnd (front ++ place) place.length =
      (place.head?.map Prod.fst).getD textEnd := by
  have dropped : (front ++ place).drop ((front ++ place).length - place.length) = place := by
    rw [List.length_append, Nat.add_sub_cancel_right, List.drop_left]
  rw [offsetFromEnd, dropped]
  cases place <;> rfl

end Placing

/-- The place at which a list of tokens is not read as a type expression, in the tokens with
their offsets. -/
theorem exists_located_place {located : List (Nat × Token)} {failure : GrammarFailure}
    (failed : readTokens (located.map Prod.snd) = .error failure) :
    ∃ front place, located = front ++ place ∧ place.length = failure.remaining ∧
      Completable (front.map Prod.snd) ∧
        ∀ other, LooksLike (place.map Prod.snd) other →
          ∀ tree, readTokens (front.map Prod.snd ++ other) ≠ .ok tree := by
  obtain ⟨front, place, whole, left, completable, blamed⟩ := exists_place_of_readTokens failed
  obtain ⟨locatedFront, locatedPlace, rfl, rfl, rfl⟩ := List.map_eq_append_iff.mp whole.symm
  exact ⟨locatedFront, locatedPlace, rfl, by simpa using left, completable, blamed⟩

/-- What the offset of a grammar error says about the tokens. -/
theorem offset_of_readTokens {text : List Char} {located : List (Nat × Token)}
    {failure : GrammarFailure} {offset : Nat} (cut : tokens text = .ok located)
    (failed : readTokens (located.map Prod.snd) = .error failure)
    (found : offset = offsetFromEnd (Text.byteLength text) located failure.remaining) :
    IsBoundary text offset ∧
      (offset ∈ located.map Prod.fst ∨ offset = Text.byteLength text) ∧
      Completable ((located.filter fun entry => entry.1 < offset).map Prod.snd) ∧
      ∀ token, (offset, token) ∈ located → token ≠ .dot → token ≠ .leftBracket →
        ¬Completable ((located.filter fun entry => entry.1 ≤ offset).map Prod.snd) := by
  obtain ⟨ordered, placed⟩ := ordered_of_tokensWithin (List.nil_append text).symm cut
  obtain ⟨front, place, rfl, left, completable, blamed⟩ := exists_located_place failed
  rw [← left, offsetFromEnd_append] at found
  cases place with
  | nil =>
      have atEnd : offset = Text.byteLength text := found
      subst atEnd
      rw [List.append_nil] at placed ⊢
      have before : ∀ entry ∈ front, decide (entry.1 < Text.byteLength text) = true :=
        fun entry member => decide_eq_true (placed entry member).2.1
      refine ⟨isBoundary_byteLength text, .inr rfl, ?_, fun token member => ?_⟩
      · rw [List.filter_eq_self.mpr before]
        exact completable
      · exact absurd (placed _ member).2.1 (Nat.lt_irrefl _)
  | cons entry behind =>
      obtain ⟨start, token⟩ := entry
      obtain rfl : offset = start := found
      have among : (offset, token) ∈ front ++ (offset, token) :: behind := by simp
      refine ⟨(placed _ among).2.2, .inl (List.mem_map_of_mem among), ?_, fun other member => ?_⟩
      · rw [filter_lt_of_ordered ordered]
        exact completable
      · rw [eq_of_mem_of_ordered ordered member, filter_le_of_ordered ordered, List.map_append]
        exact not_completable_of_looksLike blamed

/-- A text that is not a type expression is rejected with the text itself at a boundary of
it.  If the text has tokens, the offset is that of a token or the end of the text, the tokens
that begin in front of the offset can be completed, and with a token that begins there they
can not be completed, unless it is a dot or an opening bracket. -/
theorem parse_error_offset {text : String} {error : TextError}
    (rejected : parse text = .error error) :
    error.expression = text ∧ IsBoundary text.toList error.offset ∧
      error.offset ≤ Text.byteLength text.toList ∧
      ∀ located, tokens text.toList = .ok located →
        (error.offset ∈ located.map Prod.fst ∨ error.offset = Text.byteLength text.toList) ∧
        Completable ((located.filter fun entry => entry.1 < error.offset).map Prod.snd) ∧
        ∀ token, (error.offset, token) ∈ located → token ≠ .dot → token ≠ .leftBracket →
          ¬Completable ((located.filter fun entry => entry.1 ≤ error.offset).map Prod.snd) := by
  rw [parse] at rejected
  cases cut : tokens text.toList with
  | error failure =>
      rw [cut] at rejected
      cases rejected
      have boundary : IsBoundary text.toList failure.1 :=
        isBoundary_of_tokensWithin (List.nil_append _).symm cut
      refine ⟨rfl, boundary, boundary.le, fun located same => ?_⟩
      cases same
  | ok located =>
      rw [cut] at rejected
      simp only at rejected
      cases failed : readTokens (located.map Prod.snd) with
      | error failure =>
          rw [failed] at rejected
          cases rejected
          obtain ⟨boundary, tells⟩ := offset_of_readTokens cut failed rfl
          refine ⟨rfl, boundary, boundary.le, fun other same => ?_⟩
          cases same
          exact tells
      | ok tree =>
          rw [failed] at rejected
          cases rejected

/-- No argument begins with a bar, and its offset counts two bytes for the letter with the
accent. -/
theorem parse_error_offset_of_missing_argument :
    parse "é<|" = .error ⟨"é<|", 3, .grammar (.unexpectedToken .pipe)⟩ ∧
      Completable [.word "é", .less] ∧ ¬Completable [.word "é", .less, .pipe] := by
  have cut : tokens "é<|".toList = .ok [(0, .word "é"), (2, .less), (3, .pipe)] := by
    decide +kernel
  have failed : readTokens [.word "é", .less, .pipe] = .error ⟨1, .unexpectedToken .pipe⟩ := by
    simp [readTokens, readUnion, readIntersection, readOperand, readPrimary, readArguments,
      argumentTokens?, failAt]
  have rejected : parse "é<|" = .error ⟨"é<|", 3, .grammar (.unexpectedToken .pipe)⟩ := by
    rw [parse, cut]
    simp only [List.map_cons, List.map_nil, failed]
    rfl
  obtain ⟨-, -, -, tells⟩ := parse_error_offset rejected
  obtain ⟨-, completable, blamed⟩ := tells _ cut
  exact ⟨rejected, completable, blamed .pipe (by simp) (by simp) (by simp)⟩

end ApiAssembly.TypeExpr
