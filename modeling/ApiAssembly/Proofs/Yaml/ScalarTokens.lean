import ApiAssembly.Proofs.Yaml.Scanning
import ApiAssembly.Proofs.Yaml.TextStyle

/-!
# Tokens of written scalars

A written scalar becomes one token with its text, and behind it the tokenizer stands in front
of the next token.
-/

namespace ApiAssembly.Yaml.Tokenizer

section Keys

variable {state : Tokenizer}

/-- The possible key that is noted in front of a token. -/
def nextKey (state : Tokenizer) : Option PossibleKey :=
  if state.keyAllowed then
    some ⟨decide (state.indent = state.cursor.column), state.count, state.cursor.index,
      state.cursor.line, state.cursor.column⟩
  else none

theorem Settled.noteKey?_eq (settled : state.Settled) :
    state.noteKey? = some { state with possible := state.nextKey } := by
  have noKey := settled.noKey
  have noFlow := settled.noFlow
  rw [noteKey?, nextKey]
  split
  · simp [dropKey?, noKey, inFlow, noFlow]
  · rw [← noKey]

theorem isOptional_nextKey (further : state.indent < state.cursor.column) :
    IsOptional state.nextKey := by
  rw [IsOptional, nextKey]
  split
  · simp only [Option.any_some, decide_eq_false_iff_not]
    omega
  · rfl

theorem line_of_mem_nextKey {key : PossibleKey} (member : key ∈ state.nextKey) :
    key.line = state.cursor.line := by
  rw [nextKey] at member
  split at member
  · cases member
    rfl
  · cases member

/-- The noted key is kept on its line for a while. -/
theorem refresh?_nextKey {cursor : Cursor} (line : cursor.line = state.cursor.line)
    (near : cursor.index ≤ state.cursor.index + 1024) :
    refresh? cursor state.nextKey = some state.nextKey := by
  rw [nextKey]
  split
  · exact refresh?_of_line_eq line.symm near
  · rfl

end Keys

section Plain

variable {state : Tokenizer} {c : Char} {text more tail crossed rest : List Char} {broken : Bool}
  {count indent : Nat}

theorem noIndicator_of_noStart (noStart : startsWithIndicator (c :: more) = false) :
    c ∉ indicators ∧ (c = '?' ∨ c = ':' ∨ c = '-' → gapFollows more = false) := by
  rw [startsWithIndicator.eq_def] at noStart
  split at noStart
  · cases noStart
  · cases noStart
  next same =>
    cases same
    simpa using noStart
  next same => cases same

theorem isIndicator_eq_false (noIndicator : c ∉ indicators) : isIndicator c = false := by
  rw [isIndicator.eq_def]
  split <;> first | rfl | exact absurd (by decide) noIndicator

theorem startsToken_of_isPlainText (plain : IsPlainText text) : StartsToken text := by
  obtain ⟨c, more, rfl⟩ := List.exists_cons_of_ne_nil plain.inhabited
  intro d member
  cases member
  have printable := plain.printable c List.mem_cons_self
  have noGap : isGap c = false := by
    by_contra gap
    have space := eq_space_of_isPrintable printable (plain.noBreak c List.mem_cons_self)
      (Bool.not_eq_false _ ▸ gap)
    exact plain.head?_ne (congrArg some space)
  refine ⟨noGap, ?_, ?_⟩
  · rintro rfl
    exact (noIndicator_of_noStart plain.noStart).1 (by decide)
  · rintro rfl
    exact absurd printable (by decide)

/-- No gap stands behind a mark that begins a plain text. -/
theorem gapFollows_eq_false (noStart : startsWithIndicator (c :: more) = false)
    (mark : c = '?' ∨ c = ':' ∨ c = '-') (tail : List Char) :
    gapFollows (more ++ tail) = false := by
  have noGap := (noIndicator_of_noStart noStart).2 mark
  cases more with
  | nil => cases noGap
  | cons d more => exact noGap

theorem startsPlain_of_isPlainText (plain : IsPlainText (c :: more)) (tail : List Char) :
    startsPlain false c (more ++ tail) = true := by
  have noIndicator := (noIndicator_of_noStart plain.noStart).1
  have noGap : isGap c = false := (startsToken_of_isPlainText plain c rfl).1
  have noBlank : c = '-' → (more ++ tail).head?.any isBlank = false := by
    intro dash
    have noGap := gapFollows_eq_false plain.noStart (.inr (.inr dash)) tail
    cases shape : more ++ tail with
    | nil => rfl
    | cons d rest =>
        rw [shape, gapFollows, isGap, Bool.or_eq_false_iff] at noGap
        exact noGap.1
  rw [startsPlain]
  split
  next dash =>
    rw [noBlank dash]
    rfl
  next =>
    split
    next mark =>
      simp only [Bool.or_eq_true, decide_eq_true_eq] at mark
      rw [gapFollows_eq_false plain.noStart (mark.imp_right .inl)]
      rfl
    next => simp [noGap, isIndicator_eq_false noIndicator]

/-- A plain text begins a plain scalar. -/
theorem token?_of_isPlainText {limit : Int} (noFlow : state.outer = [])
    (plain : IsPlainText (c :: more)) (ends : PlainEnd limit tail broken crossed)
    (here : state.cursor.rest = c :: more ++ tail) :
    state.token? c (more ++ tail) = state.plainScalar? := by
  have different (d : Char) (member : d ∈ indicators) : c ≠ d := by
    rintro rfl
    exact (noIndicator_of_noStart plain.noStart).1 member
  have noDocument := plain.not_atDocumentMark ends here
  rw [Cursor.atDocumentMark, Bool.or_eq_false_iff] at noDocument
  have outside : state.inFlow = false := by simp [inFlow, noFlow]
  have notMark (mark : Char) (among : mark = '?' ∨ mark = ':' ∨ mark = '-') :
      (decide (c = mark) && gapFollows (more ++ tail)) = false := by
    by_cases same : c = mark
    · simp [gapFollows_eq_false plain.noStart (same ▸ among)]
    · simp [same]
  rw [token?]
  simp [noDocument.1, noDocument.2, outside, notMark '-' (.inr (.inr rfl)), notMark '?' (.inl rfl),
    notMark ':' (.inr (.inl rfl)), startsPlain_of_isPlainText plain,
    different '%' (by decide), different '[' (by decide), different '{' (by decide),
    different ']' (by decide), different '}' (by decide), different ',' (by decide),
    different '*' (by decide), different '&' (by decide), different '!' (by decide),
    different '|' (by decide), different '>' (by decide), different '\'' (by decide),
    different '"' (by decide)]

/-- A plain text with what ends it becomes a token. -/
theorem Settled.plainScalar?_eq (settled : state.Settled) (plain : IsPlainText text)
    (ends : PlainEnd (state.indent + 1) tail broken crossed)
    (here : state.cursor.rest = text ++ tail) (long : crossed.length ≤ tail.length)
    (indented : state.indent ≤ state.cursor.column) :
    state.plainScalar? = some { state with
      cursor := state.cursor.past (text ++ crossed)
      reversed := .scalar true text :: state.reversed
      count := state.count + 1
      possible := state.nextKey
      keyAllowed := broken } := by
  have enough : text.length + crossed.length < state.bound := by
    have bound := settled.enough
    rw [here, List.length_append] at bound
    omega
  have outside : state.inFlow = false := by simp [inFlow, settled.noFlow]
  have read := plain.readPlain?_eq ends here enough (by omega)
  rw [plainScalar?, settled.noteKey?_eq]
  simp [outside, read, push]

/-- A plain text at the end of a line. -/
theorem reaches_plain (settled : state.Settled) (plain : IsPlainText text)
    (block : state.indent = indent) (further : state.indent < state.cursor.column)
    (here : state.cursor.rest = text ++ '\n' :: (spaces count ++ rest))
    (starts : StartsToken rest) (within : count ≤ indent) :
    Reaches state (state.wrote [.scalar true text]
      (state.cursor.past (text ++ '\n' :: spaces count)) true) := by
  have ends : PlainEnd (state.indent + 1) ('\n' :: (spaces count ++ rest)) true
      ('\n' :: spaces count) := .line starts.endsGap (by omega)
  have long : ('\n' :: spaces count).length ≤ ('\n' :: (spaces count ++ rest)).length := by
    simp
  have scalar := settled.plainScalar?_eq plain ends here long (by omega)
  obtain ⟨c, more, rfl⟩ := List.exists_cons_of_ne_nil plain.inhabited
  have token := (token?_of_isPlainText settled.noFlow plain ends here).trans scalar
  have after : (state.cursor.past (c :: more ++ '\n' :: spaces count)).rest = rest :=
    Cursor.past_rest (by simpa using here)
  have shorter : rest.length < state.cursor.rest.length := by
    rw [here]
    simp
    omega
  refine (reaches_token settled.fresh here (by omega) token (by simpa only [after])).trans ?_
  refine reaches_freshLine (by rw [after]; exact starts) (isOptional_nextKey further)
    settled.noFlow (fun key member => ?_) (by rw [after]; exact shorter.trans settled.enough)
  rw [line_of_mem_nextKey member]
  exact Cursor.line_lt_past (List.mem_append_right _ List.mem_cons_self) rfl

end Plain

section Quoted

variable {state : Tokenizer} {single : Bool} {encode : Char → List Char}
  {text body tail rest : List Char} {count indent : Nat}

theorem atMark_of_ne {cursor : Cursor} {c mark : Char} (here : cursor.rest = c :: rest)
    (different : c ≠ mark) : cursor.atMark mark = false := by
  rw [Cursor.atMark, here]
  split
  next same =>
    cases same
    simp [different]
  next => simp

theorem token?_quoteMark (noFlow : state.outer = [])
    (here : state.cursor.rest = quoteMark single :: rest) :
    state.token? (quoteMark single) rest = state.quotedScalar? single := by
  have outside : state.inFlow = false := by simp [inFlow, noFlow]
  cases single with
  | true =>
      have noMark (mark : Char) (different : '\'' ≠ mark) := atMark_of_ne here different
      simp [token?, quoteMark, noMark, outside]
  | false =>
      have noMark (mark : Char) (different : '"' ≠ mark) := atMark_of_ne here different
      simp [token?, quoteMark, noMark, outside]

/-- A quoted text becomes a token. -/
theorem Settled.quotedScalar?_eq (settled : state.Settled)
    (enquotes : Enquotes single encode text body)
    (here : state.cursor.rest = quoteMark single :: (body ++ tail))
    (behind : tail.head? ≠ some '\'') :
    state.quotedScalar? single = some { state with
      cursor := state.cursor.past (quoteMark single :: body)
      reversed := .scalar false text :: state.reversed
      count := state.count + 1
      possible := state.nextKey
      keyAllowed := false } := by
  have line : isBreak (quoteMark single) = false := by
    cases single <;> rfl
  have enough : body.length ≤ state.bound := by
    have bound := settled.enough
    rw [here, List.length_cons, List.length_append] at bound
    omega
  have next : (state.cursor.step (quoteMark single)).rest = body ++ tail := by
    rw [Cursor.step_rest, here]
    rfl
  have inside : (state.cursor.step (quoteMark single)).column ≠ 0 := by
    rw [Cursor.step_of_not_isBreak line]
    exact Nat.succ_ne_zero _
  rw [quotedScalar?, content?, settled.noteKey?_eq, Cursor.advance_one line,
    enquotes.read behind inside next enough]
  simp [push]

/-- A quoted text at the end of a line. -/
theorem reaches_quoted (settled : state.Settled) (enquotes : Enquotes single encode text body)
    (further : state.indent < state.cursor.column)
    (here : state.cursor.rest = quoteMark single :: body ++ '\n' :: (spaces count ++ rest))
    (starts : StartsToken rest) :
    Reaches state (state.wrote [.scalar false text]
      (state.cursor.past (quoteMark single :: body ++ '\n' :: spaces count)) true) := by
  have scalar := settled.quotedScalar?_eq enquotes here (by simp)
  have token := (token?_quoteMark settled.noFlow here).trans scalar
  have after : (state.cursor.past (quoteMark single :: body)).rest =
      '\n' :: (spaces count ++ rest) := Cursor.past_rest here
  have shorter : (state.cursor.past (quoteMark single :: body)).rest.length <
      state.cursor.rest.length := by
    simp only [after, here, List.length_append, List.length_cons]
    omega
  refine (reaches_token settled.fresh here (by omega) token shorter).trans ?_
  have noted : ∀ key ∈ state.nextKey,
      key.line ≤ (state.cursor.past (quoteMark single :: body)).line := by
    intro key member
    rw [line_of_mem_nextKey member]
    exact Cursor.line_le_past _ _
  have line := @reaches_line { state with
      cursor := state.cursor.past (quoteMark single :: body)
      reversed := .scalar false text :: state.reversed
      count := state.count + 1
      possible := state.nextKey
      keyAllowed := false } rest count (isOptional_nextKey further) settled.noFlow after starts
    noted (by exact shorter.trans settled.enough)
  rw [Cursor.past_append]
  exact line

end Quoted

section Literal

variable {state : Tokenizer} {text written rest : List Char} {plain : Bool} {count indent : Nat}

theorem token?_literal (noFlow : state.outer = []) (here : state.cursor.rest = '|' :: rest) :
    state.token? '|' rest = state.blockScalar? true := by
  have outside : state.inFlow = false := by simp [inFlow, noFlow]
  have noMark (mark : Char) (different : '|' ≠ mark) := atMark_of_ne here different
  simp [token?, noMark, outside]

theorem indentLines_ne_nil {behindBreak : Bool} (inhabited : text ≠ []) :
    indentLines indent behindBreak text ≠ [] := by
  obtain ⟨c, text, rfl⟩ := List.exists_cons_of_ne_nil inhabited
  rw [indentLines]
  split <;> simp

/-- A literal block up to the token behind it. -/
theorem reaches_literal (settled : state.Settled) (fits : FitsLiteral text)
    (block : state.indent = indent) (further : state.indent < state.cursor.column)
    (here : state.cursor.rest =
      closeLine (writeLiteral (indent + 2) text) ++ (spaces count ++ rest))
    (starts : StartsToken rest) (within : count ≤ indent) :
    Reaches state (state.wrote [.scalar false text]
      (state.cursor.past (closeLine (writeLiteral (indent + 2) text) ++ spaces count)) true) := by
  have parts : closeLine (writeLiteral (indent + 2) text) = '|' ::
      ((indentationMark text ++ chompingMark text) ++
        '\n' :: closeLine (indentLines (indent + 2) true text)) := by
    have lines := @indentLines_ne_nil text (indent + 2) true fits.inhabited
    have close := @closeLine_append
      ('|' :: (indentationMark text ++ chompingMark text) ++ ['\n']) _ lines
    simpa [writeLiteral] using close
  rw [parts] at here ⊢
  have next : (state.cursor.step '|').rest = (indentationMark text ++ chompingMark text) ++
      '\n' :: (closeLine (indentLines (indent + 2) true text) ++ (spaces count ++ rest)) := by
    rw [Cursor.step_rest, here]
    simp
  have enough : (closeLine (indentLines (indent + 2) true text)).length < state.bound := by
    have bound := settled.enough
    rw [here] at bound
    simp at bound
    omega
  have read := fits.readBlock?_eq within starts.endsGap next enough
  have scalar : state.blockScalar? true = some (state.wrote [.scalar false text]
      (state.cursor.past ('|' :: ((indentationMark text ++ chompingMark text) ++
        '\n' :: closeLine (indentLines (indent + 2) true text)) ++ spaces count)) true) := by
    have move : state.cursor.advance 1 = state.cursor.step '|' := Cursor.advance_one rfl
    rw [blockScalar?, dropKey?, settled.noKey, block, move]
    simp [read, push, wrote, block]
  have token := (token?_literal settled.noFlow here).trans scalar
  refine reaches_token settled.fresh here (by omega) token ?_
  have after : (state.cursor.past ('|' :: ((indentationMark text ++ chompingMark text) ++
      '\n' :: closeLine (indentLines (indent + 2) true text)) ++ spaces count)).rest = rest :=
    Cursor.past_rest (here.trans (List.append_assoc _ _ _).symm)
  simp only [wrote, after, here]
  simp
  omega

theorem startsToken_of_writes (writes : Writes indent text plain written) :
    StartsToken written ∧ written ≠ [] := by
  cases writes with
  | plain plain => exact ⟨startsToken_of_isPlainText plain, plain.inhabited⟩
  | @quoted single encode body enquotes =>
      refine ⟨?_, by simp⟩
      cases single <;> simp [StartsToken, quoteMark, isGap, isBlank, isBreak]
  | literal =>
      refine ⟨?_, by simp [writeLiteral]⟩
      simp [StartsToken, writeLiteral, isGap, isBlank, isBreak]

/-- A scalar at the end of a line, up to the token behind it. -/
theorem reaches_scalar (settled : state.Settled) (writes : Writes (indent + 2) text plain written)
    (block : state.indent = indent) (further : state.indent < state.cursor.column)
    (here : state.cursor.rest = closeLine written ++ (spaces count ++ rest))
    (starts : StartsToken rest) (within : count ≤ indent) :
    Reaches state (state.wrote [.scalar plain text]
      (state.cursor.past (closeLine written ++ spaces count)) true) := by
  cases writes with
  | plain plain =>
      rw [closeLine_of_noBreak plain.noBreak] at here ⊢
      have reached := reaches_plain settled plain block further (by simpa using here) starts within
      simpa using reached
  | @quoted single encode body enquotes =>
      have close : closeLine (quoteMark single :: body) = quoteMark single :: body ++ ['\n'] := by
        have noBreak : isBreak (quoteMark single) = false := by
          cases single <;> rfl
        rw [closeLine, List.getLast?_cons, enquotes.getLast?_eq, Option.getD_some, Option.any_some,
          noBreak, if_neg Bool.false_ne_true]
      rw [close] at here ⊢
      have reached := reaches_quoted settled enquotes further (by simpa using here) starts
      simpa using reached
  | literal fits long => exact reaches_literal settled fits block further here starts within

end Literal

section Brackets

variable {state : Tokenizer} {rest : List Char} {count indent : Nat} {first last : Char}
  {opening closing : Token}

/-- The brackets of an empty sequence or mapping, with their tokens. -/
inductive EmptyBrackets : Char → Char → Token → Token → Prop
  | sequence : EmptyBrackets '[' ']' .flowSequenceStart .flowSequenceEnd
  | mapping : EmptyBrackets '\x7b' '\x7d' .flowMappingStart .flowMappingEnd

theorem EmptyBrackets.isBreak_eq_false (brackets : EmptyBrackets first last opening closing) :
    isBreak first = false := by
  cases brackets <;> rfl

/-- The state behind an opening bracket, where the key that the brackets may be is kept. -/
def enterFlow (state : Tokenizer) (opening : Token) (first : Char) : Tokenizer :=
  { state with
    cursor := state.cursor.step first
    reversed := opening :: state.reversed
    count := state.count + 1
    outer := [state.nextKey]
    keyAllowed := true }

theorem token?_openFlow (settled : state.Settled)
    (brackets : EmptyBrackets first last opening closing)
    (here : state.cursor.rest = first :: rest) :
    state.token? first rest = some (state.enterFlow opening first) := by
  have opens : state.openFlow? opening = some { state with
      cursor := state.cursor.advance 1
      reversed := opening :: state.reversed
      count := state.count + 1
      outer := [state.nextKey]
      keyAllowed := true } := by
    rw [openFlow?, settled.noteKey?_eq]
    simp [take, push, settled.noFlow, settled.noKey]
  cases brackets with
  | sequence =>
      have noMark (mark : Char) (different : '[' ≠ mark) := atMark_of_ne here different
      have move : state.cursor.advance 1 = state.cursor.step '[' := Cursor.advance_one rfl
      simp [token?, noMark, opens, move, enterFlow]
  | mapping =>
      have noMark (mark : Char) (different : '\x7b' ≠ mark) := atMark_of_ne here different
      have move : state.cursor.advance 1 = state.cursor.step '\x7b' := Cursor.advance_one rfl
      simp [token?, noMark, opens, move, enterFlow]

theorem token?_closeFlow (brackets : EmptyBrackets first last opening closing)
    {possible : Option PossibleKey} (noKey : state.possible = none)
    (within : state.outer = [possible]) (here : state.cursor.rest = last :: rest) :
    state.token? last rest = some { state with
      cursor := state.cursor.step last
      reversed := closing :: state.reversed
      count := state.count + 1
      possible
      outer := []
      keyAllowed := false } := by
  have closes : state.closeFlow? closing = some { state with
      cursor := state.cursor.advance 1
      reversed := closing :: state.reversed
      count := state.count + 1
      possible
      outer := []
      keyAllowed := false } := by
    simp [closeFlow?, dropKey?, noKey, within, take, push]
  cases brackets with
  | sequence =>
      have noMark (mark : Char) (different : ']' ≠ mark) := atMark_of_ne here different
      have move : state.cursor.advance 1 = state.cursor.step ']' := Cursor.advance_one rfl
      simp [token?, noMark, closes, move]
  | mapping =>
      have noMark (mark : Char) (different : '\x7d' ≠ mark) := atMark_of_ne here different
      have move : state.cursor.advance 1 = state.cursor.step '\x7d' := Cursor.advance_one rfl
      simp [token?, noMark, closes, move]

/-- The closing bracket is read next, on the line of the opening one. -/
theorem Settled.fresh_enterFlow (settled : state.Settled)
    (brackets : EmptyBrackets first last opening closing)
    (here : state.cursor.rest = first :: last :: rest) :
    (state.enterFlow opening first).Fresh := by
  have onLine : state.cursor.step first = ⟨last :: rest, state.cursor.index + 1,
      state.cursor.line, state.cursor.column + 1⟩ := by
    rw [Cursor.step_of_not_isBreak brackets.isBreak_eq_false, here]
    rfl
  constructor
  case starts =>
    rw [enterFlow, onLine]
    cases brackets <;> simp [StartsToken, isGap, isBlank, isBreak]
  case kept =>
    have kept : refresh? (state.cursor.step first) state.nextKey = some state.nextKey :=
      refresh?_nextKey (by rw [onLine]) (by rw [onLine]; simp only; omega)
    have absent : refresh? (state.cursor.step first) none = some none := rfl
    simp [enterFlow, Tokenizer.dropStaleKeys?, settled.noKey, kept, absent]
  case enough =>
    have length := settled.enough
    rw [enterFlow, onLine]
    rw [here] at length
    simp only [List.length_cons] at length ⊢
    omega

/-- Brackets with nothing between them at the end of a line. -/
theorem reaches_brackets (settled : state.Settled)
    (brackets : EmptyBrackets first last opening closing)
    (further : state.indent < state.cursor.column)
    (here : state.cursor.rest = first :: last :: '\n' :: (spaces count ++ rest))
    (starts : StartsToken rest) :
    Reaches state (state.wrote [opening, closing]
      (state.cursor.past (first :: last :: '\n' :: spaces count)) true) := by
  have inside : (state.cursor.step first).rest = last :: '\n' :: (spaces count ++ rest) := by
    rw [Cursor.step_rest, here]
    rfl
  have after : ((state.cursor.step first).step last).rest = '\n' :: (spaces count ++ rest) := by
    rw [Cursor.step_rest, inside]
    rfl
  have column : (state.cursor.step first).column = state.cursor.column + 1 := by
    rw [Cursor.step_of_not_isBreak brackets.isBreak_eq_false]
  have opened := reaches_token settled.fresh here (by omega) (token?_openFlow settled brackets here)
    (by simp [enterFlow, here])
  refine opened.trans ?_
  have closed := reaches_token (settled.fresh_enterFlow brackets here) inside
    (by rw [enterFlow, column]; simp only; omega)
    (token?_closeFlow brackets settled.noKey rfl inside) (by simp [enterFlow, here])
  refine closed.trans ?_
  have noted : ∀ key ∈ state.nextKey, key.line ≤ ((state.cursor.step first).step last).line := by
    intro key member
    rw [line_of_mem_nextKey member]
    exact Cursor.line_le_past state.cursor [first, last]
  have length := settled.enough
  rw [here] at length
  have line := @reaches_line { state with
      cursor := (state.cursor.step first).step last
      reversed := closing :: opening :: state.reversed
      count := state.count + 1 + 1
      possible := state.nextKey
      outer := []
      keyAllowed := false } rest count (isOptional_nextKey further) rfl after starts noted
    (by simp only [after]; simp only [List.length_cons] at length ⊢; omega)
  simpa [enterFlow, wrote, settled.noFlow] using line

end Brackets

end ApiAssembly.Yaml.Tokenizer
