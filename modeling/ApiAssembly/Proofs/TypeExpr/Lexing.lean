import ApiAssembly.Proofs.TypeExpr.Spelling
import Mathlib.Data.List.Chain

/-!
# Texts of tokens

A text that spells tokens in order, with blanks wherever they are wanted, is cut into just
these tokens, provided that no two neighbours could be run together.  And whatever text is
cut into tokens spells them.
-/

namespace ApiAssembly.TypeExpr

/-- The texts that spell tokens in order, with any blanks in front, between and behind. -/
inductive Written : List Token → List Char → Prop
  | nil : Written [] []
  | blank {c : Char} {tokens : List Token} {text : List Char} :
      Text.isBlank c = true → Written tokens text → Written tokens (c :: text)
  | token {token : Token} {tokens : List Token} {spelling text : List Char} :
      Spells token spelling → Written tokens text → Written (token :: tokens) (spelling ++ text)

/-- The tokens of one character, apart from the dot. -/
def Token.isPunctuation : Token → Bool
  | .word _ | .number _ | .quoted _ | .dot | .ellipsis => false
  | _ => true

/-- Neighbours that stay apart without a blank between them. -/
def Token.Precedes : Token → Token → Prop
  | .word _, next => next.isPunctuation = true ∨ next = .dot
  | .number _, next => next.isPunctuation = true
  | .dot, next => next = .less
  | _, _ => True

variable {c : Char} {text spelling : List Char} {token next : Token} {tokens : List Token}

theorem Spells.exists_delimiter (spells : Spells token spelling)
    (punctuation : token.isPunctuation = true) :
    ∃ c, isDelimiter c = true ∧ spelling = [c] := by
  cases spells with
  | @punctuation c _ mark => exact ⟨c, isDelimiter_of_punctuation? mark, rfl⟩
  | _ => cases punctuation

theorem Spells.eq_dot (spells : Spells .dot spelling) : spelling = ['.'] := by
  cases spells with
  | @punctuation c _ mark =>
      unfold punctuation? at mark
      split at mark <;> cases mark
  | dot => rfl

/-- What stands behind a token that precedes it does not go on with it, unless it is a dot
behind a word. -/
theorem Token.Precedes.cases (precedes : token.Precedes next) :
    next.isPunctuation = true ∨ (∃ name, token = .word name ∧ next = .dot) ∨
      ∀ text, Ends token text := by
  cases token with
  | word name =>
      rcases precedes with punctuation | dot
      · exact Or.inl punctuation
      · exact Or.inr (Or.inl ⟨name, rfl, dot⟩)
  | number value => exact Or.inl precedes
  | dot =>
      left
      rw [show next = .less from precedes]
      rfl
  | _ => exact Or.inr (Or.inr fun _ => trivial)

theorem ends_append_of_isPunctuation (spells : Spells next spelling)
    (punctuation : next.isPunctuation = true) (token : Token) (text : List Char) :
    Ends token (spelling ++ text) := by
  obtain ⟨c, delimiter, rfl⟩ := spells.exists_delimiter punctuation
  exact ends_cons_of_isDelimiter delimiter token text

/-- Behind a dot that ends a word stands no character with which a word could begin. -/
theorem not_any_isWordStart_of_written (chain : List.IsChain Token.Precedes (.dot :: tokens))
    (written : Written tokens text) : text.head?.any isWordStart = false := by
  have noStart : ∀ {c : Char}, isDelimiter c = true → isWordStart c = false := by
    intro c delimiter
    cases start : isWordStart c with
    | false => rfl
    | true =>
        rw [isDelimiter_of_isWordPart (isWordPart_of_isWordStart start)] at delimiter
        cases delimiter
  cases written with
  | nil => rfl
  | blank blank _ => exact noStart (isDelimiter_of_isBlank blank)
  | token spells _ =>
      have less := (List.isChain_cons_cons.mp chain).1
      obtain ⟨c, delimiter, rfl⟩ := spells.exists_delimiter (by rw [less]; rfl)
      exact noStart delimiter

theorem ends_of_written (chain : List.IsChain Token.Precedes (token :: tokens))
    (written : Written tokens text) : Ends token text := by
  cases written with
  | nil => exact ends_nil token
  | blank blank _ => exact ends_cons_of_isDelimiter (isDelimiter_of_isBlank blank) token _
  | @token next tokens spelling text spells behind =>
      obtain ⟨precedes, rest⟩ := List.isChain_cons_cons.mp chain
      rcases precedes.cases with punctuation | ⟨name, rfl, rfl⟩ | always
      · exact ends_append_of_isPunctuation spells punctuation token text
      · have noStart := not_any_isWordStart_of_written rest behind
        rw [spells.eq_dot, List.singleton_append, Ends, wordRun, if_neg]
        rw [noStart]
        decide
      · exact always _

theorem tokensWithin_of_isBlank (total : Nat) (blank : Text.isBlank c = true) (rest : List Char) :
    tokensWithin total (c :: rest) = tokensWithin total rest := by
  rw [tokensWithin, if_pos blank]

theorem tokensWithin_of_ok (total : Nat) {rest after : List Char}
    (found : firstToken c rest = .ok (token, after)) :
    tokensWithin total (c :: rest) = (tokensWithin total after).map fun located =>
      (total - Text.byteLength (c :: rest), token) :: located := by
  have notBlank : ¬Text.isBlank c = true := by
    intro blank
    rw [firstToken_of_isBlank blank] at found
    cases found
  rw [tokensWithin, if_neg notBlank]
  split
  next failed => rw [found] at failed; cases failed
  next read =>
    rw [found] at read
    cases read
    cases tokensWithin total after <;> rfl

theorem tokensWithin_of_error (total : Nat) (notBlank : Text.isBlank c = false)
    {rest : List Char} {error : TokenError} (failed : firstToken c rest = .error error) :
    tokensWithin total (c :: rest) =
      .error (total - Text.byteLength (c :: rest), error) := by
  rw [tokensWithin, if_neg (by simp [notBlank])]
  split
  next other => rw [failed] at other; cases other; rfl
  next read => rw [failed] at read; cases read

/-- A text that spells tokens which stay apart is cut into these tokens. -/
theorem exists_tokensWithin_of_written (total : Nat) (written : Written tokens text)
    (chain : List.IsChain Token.Precedes tokens) :
    ∃ located, tokensWithin total text = .ok located ∧ located.map Prod.snd = tokens := by
  induction written with
  | nil => exact ⟨[], by rw [tokensWithin], rfl⟩
  | @blank c tokens text blank _ ih =>
      obtain ⟨located, cut, same⟩ := ih chain
      exact ⟨located, (tokensWithin_of_isBlank total blank text).trans cut, same⟩
  | @token token tokens spelling text spells behind ih =>
      obtain ⟨located, cut, same⟩ := ih chain.tail
      obtain ⟨c, rest, rfl, read⟩ := spells.firstToken
      have found := read text (ends_of_written chain behind)
      refine ⟨(total - Text.byteLength (c :: (rest ++ text)), token) :: located, ?_, ?_⟩
      · rw [List.cons_append, tokensWithin_of_ok total found, cut]
        rfl
      · rw [List.map_cons, same]

/-- A text that is cut into tokens spells them. -/
theorem written_of_tokensWithin {total : Nat} {located : List (Nat × Token)}
    (cut : tokensWithin total text = .ok located) : Written (located.map Prod.snd) text := by
  fun_induction tokensWithin total text generalizing located with
  | case1 =>
      cases cut
      exact .nil
  | case2 c rest blank ih => exact .blank blank (ih cut)
  | case3 => cases cut
  | case4 => cases cut
  | case5 c rest notBlank offset token after found others inner =>
      rename_i ih
      cases cut
      obtain ⟨spelling, spells, whole⟩ := exists_spelling_of_firstToken found
      rw [whole]
      exact .token spells (ih inner)

/-- Tokens that have spellings. -/
def Spelled (tokens : List Token) : Prop :=
  ∀ token ∈ tokens, ∃ spelling, Spells token spelling

theorem spelled_append {first second : List Token} :
    Spelled (first ++ second) ↔ Spelled first ∧ Spelled second :=
  List.forall_mem_append

theorem spelled_cons {token : Token} :
    Spelled (token :: tokens) ↔ (∃ spelling, Spells token spelling) ∧ Spelled tokens :=
  List.forall_mem_cons

theorem isWord_of_spells {name : String} {spelling : List Char}
    (spells : Spells (.word name) spelling) : isWord name.toList = true := by
  cases spells with
  | @punctuation c _ mark =>
      unfold punctuation? at mark
      split at mark <;> cases mark
  | word isWord =>
      rw [String.toList_ofList]
      exact isWord

theorem exists_escapes (quote : Char) (text : List Char) :
    ∃ written, Escapes quote text written := by
  induction text with
  | nil => exact ⟨[], .nil⟩
  | cons c text ih =>
      obtain ⟨written, escapes⟩ := ih
      exact ⟨'\\' :: c :: written, .escaped escapes⟩

theorem exists_spelling_quoted (text : String) :
    ∃ spelling, Spells (.quoted text) spelling := by
  obtain ⟨written, escapes⟩ := exists_escapes '"' text.toList
  have spells := Spells.quoted (Or.inr rfl) escapes
  rw [String.ofList_toList] at spells
  exact ⟨_, spells⟩

theorem exists_spelling_word {name : String} (word : isWord name.toList = true) :
    ∃ spelling, Spells (.word name) spelling := by
  have spells := Spells.word word
  rw [String.ofList_toList] at spells
  exact ⟨_, spells⟩

theorem exists_spelling_of_isPunctuation {token : Token}
    (punctuation : token.isPunctuation = true) : ∃ spelling, Spells token spelling := by
  have marks : ∃ c, punctuation? c = some token := by
    cases token with
    | pipe => exact ⟨'|', rfl⟩
    | ampersand => exact ⟨'&', rfl⟩
    | leftParenthesis => exact ⟨'(', rfl⟩
    | rightParenthesis => exact ⟨')', rfl⟩
    | leftBrace => exact ⟨'\x7b', rfl⟩
    | rightBrace => exact ⟨'\x7d', rfl⟩
    | leftBracket => exact ⟨'[', rfl⟩
    | rightBracket => exact ⟨']', rfl⟩
    | less => exact ⟨'<', rfl⟩
    | greater => exact ⟨'>', rfl⟩
    | colon => exact ⟨':', rfl⟩
    | comma => exact ⟨',', rfl⟩
    | star => exact ⟨'*', rfl⟩
    | question => exact ⟨'?', rfl⟩
    | bang => exact ⟨'!', rfl⟩
    | equals => exact ⟨'=', rfl⟩
    | _ => cases punctuation
  obtain ⟨c, mark⟩ := marks
  exact ⟨[c], .punctuation mark⟩

theorem spelled_punctuation {token : Token} (punctuation : token.isPunctuation = true) :
    Spelled [token] :=
  spelled_cons.mpr ⟨exists_spelling_of_isPunctuation punctuation, List.forall_mem_nil _⟩

theorem exists_written {tokens : List Token} (spelled : Spelled tokens) :
    ∃ text, Written tokens text := by
  induction tokens with
  | nil => exact ⟨[], .nil⟩
  | cons token tokens ih =>
      obtain ⟨⟨spelling, spells⟩, rest⟩ := spelled_cons.mp spelled
      obtain ⟨text, written⟩ := ih rest
      exact ⟨spelling ++ text, .token spells written⟩

theorem spelled_of_written {text : List Char} (written : Written tokens text) :
    Spelled tokens := by
  induction written with
  | nil => exact List.forall_mem_nil _
  | blank _ _ ih => exact ih
  | token spells _ ih => exact spelled_cons.mpr ⟨⟨_, spells⟩, ih⟩

end ApiAssembly.TypeExpr
