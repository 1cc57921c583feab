import ApiAssembly.Proofs.Yaml.BlockTokens

/-!
# Tokens of written values

The tokens of a value, read off the value itself, are those of its text.  The proof follows the
value; a written part is crossed from where it begins up to the next token behind it.
-/

namespace ApiAssembly.Yaml

section Tokens

def textToken (text : String) : Token :=
  .scalar (styleOf text = .plain) text.toList

def flatTokens : Value → List Token
  | .null => [.scalar true "null".toList]
  | .bool true => [.scalar true "true".toList]
  | .bool false => [.scalar true "false".toList]
  | .number value => [.scalar true (writeNumber value)]
  | .string text => [textToken text]
  | .array _ => [.flowSequenceStart, .flowSequenceEnd]
  | .object _ => [.flowMappingStart, .flowMappingEnd]

mutual

/-- The tokens of a value that begins a block of its own, if it is one. -/
def inlineTokens : Value → List Token
  | .array (item :: items) => .blockSequenceStart :: itemTokens (item :: items) ++ [.blockEnd]
  | .object (member :: members) =>
    .blockMappingStart :: memberTokens (member :: members) ++ [.blockEnd]
  | value => flatTokens value

/-- The tokens of a value behind a key, where the items of a sequence are not indented. -/
def behindKeyTokens : Value → List Token
  | .array (item :: items) => itemTokens (item :: items)
  | .object (member :: members) =>
    .blockMappingStart :: memberTokens (member :: members) ++ [.blockEnd]
  | value => flatTokens value

def itemTokens : List Value → List Token
  | [] => []
  | item :: items => .blockEntry :: inlineTokens item ++ itemTokens items

def memberTokens : List (String × Value) → List Token
  | [] => []
  | (key, value) :: members =>
    .key :: textToken key :: .value ::
      (if isSimpleKey key then behindKeyTokens value else inlineTokens value) ++
        memberTokens members

end

end Tokens

namespace Tokenizer

section Crossing

variable {state : Tokenizer} {written front back rest : List Char} {tokens : List Token}
  {count column : Nat} {allowed : Bool}

/-- A written part ahead of a state, with the indentation of the token behind it. -/
structure Ahead (state : Tokenizer) (written : List Char) (count : Nat) (rest : List Char) :
    Prop where
  here : state.cursor.rest = written ++ (spaces count ++ rest)
  starts : StartsToken rest
  noKey : state.possible = none
  noFlow : state.outer = []
  enough : state.cursor.rest.length < state.bound

/-- The state behind a written part, up to the next token. -/
def behind (state : Tokenizer) (tokens : List Token) (written : List Char) (count : Nat) :
    Tokenizer :=
  state.wrote tokens (state.cursor.past (written ++ spaces count)) true

theorem StartsToken.append {front : List Char} (starts : StartsToken front) (inhabited : front ≠ [])
    (back : List Char) : StartsToken (front ++ back) := by
  obtain ⟨c, rest, rfl⟩ := List.exists_cons_of_ne_nil inhabited
  exact starts

theorem Ahead.settled (ahead : Ahead state written count rest)
    (starts : StartsToken written) (inhabited : written ≠ []) : state.Settled where
  starts := by
    rw [ahead.here]
    exact starts.append inhabited _
  noKey := ahead.noKey
  noFlow := ahead.noFlow
  enough := ahead.enough

/-- What is ahead when a front part is crossed. -/
theorem Ahead.past (ahead : Ahead state (front ++ back) count rest) :
    Ahead (state.wrote tokens (state.cursor.past front) allowed) back count rest := by
  have after : (state.cursor.past front).rest = back ++ (spaces count ++ rest) :=
    Cursor.past_rest (by rw [ahead.here, List.append_assoc])
  refine ⟨after, ahead.starts, rfl, ahead.noFlow, ?_⟩
  have enough := ahead.enough
  rw [ahead.here] at enough
  simp only [wrote, after]
  simp only [List.length_append] at enough ⊢
  omega

/-- The front part alone, with the indentation of the back part. -/
theorem Ahead.frontPart (ahead : Ahead state (front ++ (spaces column ++ back)) count rest)
    (starts : StartsToken back) (inhabited : back ≠ []) :
    Ahead state front column (back ++ (spaces count ++ rest)) where
  here := by rw [ahead.here, List.append_assoc, List.append_assoc]
  starts := starts.append inhabited _
  noKey := ahead.noKey
  noFlow := ahead.noFlow
  enough := ahead.enough

theorem Ahead.settled_behind (ahead : Ahead state written count rest) :
    (state.behind tokens written count).Settled := by
  have after : (state.cursor.past (written ++ spaces count)).rest = rest :=
    Cursor.past_rest (by rw [ahead.here, List.append_assoc])
  have enough := ahead.enough
  rw [ahead.here] at enough
  refine ⟨?_, rfl, ahead.noFlow, ?_⟩
  · rw [behind, wrote, after]
    exact ahead.starts
  · simp only [behind, wrote, after]
    simp only [List.length_append] at enough
    omega

/-- Behind a closed line the column is that of the next token. -/
theorem column_behind_closeLine (text : List Char) :
    (state.behind tokens (closeLine text) count).cursor.column = count := by
  obtain ⟨line, last, shape, ends⟩ := exists_closeLine text
  have column := @Cursor.column_behind_breaks (state.cursor.past line) (spaces count) [last]
    (by simp) (by simpa using ends) isBreak_of_mem_spaces
  rw [spaces, List.length_replicate, ← spaces] at column
  rw [behind, wrote, shape, List.append_assoc, Cursor.past_append]
  exact column

/-- The end of a block that began in front of a written part. -/
theorem closeBlock_opened {token : Token} (below : state.indent < column) (cursor : Cursor)
    (noKey : state.possible = none) :
    closeBlock ((state.opened column token).wrote tokens cursor allowed) =
      state.wrote (token :: tokens ++ [.blockEnd]) cursor allowed := by
  simp [closeBlock, opened, below, wrote, push, noKey]
  omega

end Crossing

section Flat

variable {state : Tokenizer} {text written rest : List Char} {plain : Bool} {count indent : Nat}

theorem startsToken_closeLine (starts : StartsToken text) (inhabited : text ≠ []) :
    StartsToken (closeLine text) := by
  rw [closeLine]
  split
  · exact starts
  · exact starts.append inhabited _

/-- A value that is no block is a scalar or brackets with nothing between them. -/
theorem flatTokens_cases (value : Value) (positive : 0 < indent) :
    (∃ plain text, Writes indent text plain (writeFlat indent value) ∧
      flatTokens value = [.scalar plain text]) ∨
    ∃ first last opening closing, EmptyBrackets first last opening closing ∧
      writeFlat indent value = [first, last] ∧ flatTokens value = [opening, closing] := by
  cases value with
  | null => exact .inl ⟨_, _, .plain (isPlainText_of_mem_words (by simp)), rfl⟩
  | bool value =>
      cases value with
      | true => exact .inl ⟨_, _, .plain (isPlainText_of_mem_words (by simp)), rfl⟩
      | false => exact .inl ⟨_, _, .plain (isPlainText_of_mem_words (by simp)), rfl⟩
  | number value => exact .inl ⟨_, _, .plain (isPlainText_writeNumber value), rfl⟩
  | string text => exact .inl ⟨_, _, writes_text text fun _ _ _ => positive, rfl⟩
  | array items => exact .inr ⟨_, _, _, _, .sequence, rfl, rfl⟩
  | object members => exact .inr ⟨_, _, _, _, .mapping, rfl, rfl⟩

theorem startsToken_writeFlat (value : Value) (positive : 0 < indent) :
    StartsToken (writeFlat indent value) ∧ writeFlat indent value ≠ [] := by
  rcases flatTokens_cases value positive with ⟨plain, text, writes, -⟩ |
    ⟨first, last, opening, closing, brackets, written, -⟩
  · exact startsToken_of_writes writes
  · rw [written]
    refine ⟨?_, by simp⟩
    cases brackets <;> simp [StartsToken, isGap, isBlank, isBreak]

theorem isAllowed_of_mem_writeFlat (value : Value) :
    ∀ c ∈ writeFlat indent value, isAllowed c = true := by
  cases value with
  | null => exact (by decide : ∀ c ∈ "null".toList, isAllowed c = true)
  | bool value =>
      cases value with
      | true => exact (by decide : ∀ c ∈ "true".toList, isAllowed c = true)
      | false => exact (by decide : ∀ c ∈ "false".toList, isAllowed c = true)
  | number value =>
      have plain := isPlainText_writeNumber value
      exact fun c member => isAllowed_of_isPrintable (plain.printable c member)
  | string text => exact isAllowed_of_mem_writeText text
  | array items => exact (by decide : ∀ c ∈ ['[', ']'], isAllowed c = true)
  | object members => exact (by decide : ∀ c ∈ ['\x7b', '\x7d'], isAllowed c = true)

/-- A value that is no block. -/
theorem reaches_flat (value : Value)
    (ahead : Ahead state (closeLine (writeFlat (indent + 2) value)) count rest)
    (block : state.indent = indent) (further : state.indent < state.cursor.column)
    (within : count ≤ indent) : Reaches state
      (state.behind (flatTokens value) (closeLine (writeFlat (indent + 2) value)) count) := by
  obtain ⟨starts, inhabited⟩ := startsToken_writeFlat value (Nat.succ_pos (indent + 1))
  have close := ahead.settled (startsToken_closeLine starts inhabited) (by
    obtain ⟨line, last, shape, -⟩ := exists_closeLine (writeFlat (indent + 2) value)
    simp [shape])
  rcases flatTokens_cases value (Nat.succ_pos (indent + 1)) with ⟨plain, text, writes, tokens⟩ |
    ⟨first, last, opening, closing, brackets, written, tokens⟩
  · rw [tokens]
    exact reaches_scalar close writes block further ahead.here ahead.starts within
  · have line : closeLine [first, last] = [first, last] ++ ['\n'] := by
      cases brackets <;> rfl
    have here := ahead.here
    rw [written, line] at here
    rw [tokens, written, line]
    exact reaches_brackets close brackets further here ahead.starts

end Flat

section Blocks

variable {state : Tokenizer} {rest : List Char} {tokens more : List Token} {start : Token}
  {front back : Nat → List Char} {count column : Nat} {allowed : Bool}

/-- A text that begins with a token and ends with its line. -/
structure IsBlockText (written : List Char) : Prop where
  starts : StartsToken written
  inhabited : written ≠ []
  closed : closeLine written = written
  allowed : ∀ c ∈ written, isAllowed c = true

/-- A part of a block, which may be the first one, is crossed at every column. -/
structure CrossesBlock (start : Token) (written : Nat → List Char) (tokens : List Token) :
    Prop where
  isText (column : Nat) : IsBlockText (written column)
  crosses {state : Tokenizer} {rest : List Char} {column count : Nat}
    (ahead : Ahead state (written column) count rest) (allowed : state.keyAllowed = true)
    (here : state.cursor.column = column) (inside : state.indent ≤ column)
    (within : count ≤ column) :
    Reaches state ((state.opened column start).behind tokens (written column) count)

/-- A value is crossed where its first line begins two columns behind the block around it. -/
structure CrossesInline (value : Value) : Prop where
  isText (indent : Nat) : IsBlockText (closeLine (writeInline (indent + 2) value))
  crosses {state : Tokenizer} {rest : List Char} {indent count : Nat}
    (ahead : Ahead state (closeLine (writeInline (indent + 2) value)) count rest)
    (allowed : state.keyAllowed = true) (block : state.indent = indent)
    (here : state.cursor.column = indent + 2) (within : count ≤ indent) :
    Reaches state
      (state.behind (inlineTokens value) (closeLine (writeInline (indent + 2) value)) count)

/-- A value is crossed behind the colon of its key. -/
structure CrossesBehindKey (value : Value) : Prop where
  allowed (indent : Nat) : ∀ c ∈ closeLine (writeBehindKey indent value), isAllowed c = true
  crosses {state : Tokenizer} {rest : List Char} {indent count : Nat}
    (ahead : Ahead state (closeLine (writeBehindKey indent value)) count rest)
    (block : state.indent = indent) (further : state.indent < state.cursor.column)
    (within : count ≤ indent) : Reaches state
      (state.behind (behindKeyTokens value) (closeLine (writeBehindKey indent value)) count)

theorem behind_wrote (first : List Token) (written next : List Char) :
    (state.wrote first (state.cursor.past written) allowed).behind tokens next count =
      state.behind (first ++ tokens) (written ++ next) count := by
  rw [behind, behind, wrote_wrote]
  simp only [wrote, List.append_assoc, Cursor.past_append]

theorem behind_behind (first : List Token) (written next : List Char) :
    (state.behind first written column).behind tokens next count =
      state.behind (first ++ tokens) (written ++ (spaces column ++ next)) count := by
  rw [← List.append_assoc]
  exact behind_wrote first (written ++ spaces column) next

theorem Ahead.opened {written : List Char} (ahead : Ahead state written count rest) :
    Ahead (state.opened column start) written count rest := by
  rw [Tokenizer.opened]
  split
  · exact ⟨ahead.here, ahead.starts, ahead.noKey, ahead.noFlow, ahead.enough⟩
  · exact ahead

/-- A part of a block with another part behind it. -/
theorem CrossesBlock.append (first : CrossesBlock start front tokens)
    (later : CrossesBlock start back more) :
    CrossesBlock start (fun column => front column ++ (spaces column ++ back column))
      (tokens ++ more) where
  isText column := by
    obtain ⟨starts, inhabited, -, allowed⟩ := first.isText column
    obtain ⟨-, last, closed, allowedLast⟩ := later.isText column
    refine ⟨starts.append inhabited _, by simp [inhabited], ?_, ?_⟩
    · rw [← List.append_assoc, closeLine_append last, closed]
    · exact List.forall_mem_append.mpr
        ⟨allowed, List.forall_mem_append.mpr ⟨isAllowed_of_mem_spaces, allowedLast⟩⟩
  crosses := by
    intro state rest column count ahead allowed here inside within
    obtain ⟨starts, inhabited, -⟩ := later.isText column
    have crossed := first.crosses (ahead.frontPart starts inhabited) allowed here inside
      (Nat.le_refl column)
    have aheadBack : Ahead ((state.opened column start).behind tokens (front column) column)
        (back column) count rest := by
      have shape := @Ahead.opened _ _ start count column _ ahead
      rw [← List.append_assoc] at shape
      exact shape.past
    have indent : ((state.opened column start).behind tokens (front column) column).indent =
        column := opened_indent inside
    have hereBack :
        ((state.opened column start).behind tokens (front column) column).cursor.column =
          column := by
      rw [← (first.isText column).closed]
      exact column_behind_closeLine _
    have goesOn := later.crosses aheadBack rfl hereBack indent.le within
    rw [opened_of_le indent.ge, behind_behind] at goesOn
    exact crossed.trans goesOn

/-- A block that begins and ends. -/
theorem CrossesBlock.nested (block : CrossesBlock start front tokens)
    (ahead : Ahead state (front column) count rest) (allowed : state.keyAllowed = true)
    (here : state.cursor.column = column) (further : state.indent < column)
    (within : count ≤ column) (outside : rest = [] ∨ count < column) :
    Reaches state
      (state.behind (start :: tokens ++ [.blockEnd]) (front column) count) := by
  have crossed := block.crosses ahead allowed here (by omega) within
  refine crossed.trans ?_
  have indent : ((state.opened column start).behind tokens (front column) count).indent =
      column := opened_indent (by omega)
  have hereBehind : ((state.opened column start).behind tokens (front column) count).cursor.column =
      count := by
    rw [← (block.isText column).closed]
    exact column_behind_closeLine _
  have after : ((state.opened column start).behind tokens (front column) count).cursor.rest =
      rest := by
    rw [behind, wrote, opened_cursor]
    exact Cursor.past_rest (by rw [ahead.here, List.append_assoc])
  have settled : ((state.opened column start).behind tokens (front column) count).Settled :=
    ahead.opened.settled_behind
  have closed : closeBlock ((state.opened column start).behind tokens (front column) count) =
      state.behind (start :: tokens ++ [.blockEnd]) (front column) count := by
    rw [behind, closeBlock_opened further _ ahead.noKey, opened_cursor, behind]
  rw [← closed]
  refine reaches_closeBlock settled (by rw [indent]; omega) ?_
  rw [after, hereBehind, indent]
  exact outside.imp_right fun below => by omega

end Blocks

section Parts

variable {value : Value} {start token : Token} {c : Char} {key : String}

/-- A value behind a mark of its own. -/
theorem crossesBlock_mark (mark : BlockMark c start token) (inline : CrossesInline value) :
    CrossesBlock start (fun column => c :: ' ' :: closeLine (writeInline (column + 2) value))
      (token :: inlineTokens value) where
  isText column := by
    obtain ⟨-, inhabited, closed, allowed⟩ := inline.isText column
    refine ⟨?_, by simp, ?_, ?_⟩
    · cases mark <;> simp [StartsToken, isGap, isBlank, isBreak]
    · have close := @closeLine_append [c, ' '] _ inhabited
      rw [closed] at close
      exact close
    · refine List.forall_mem_cons.mpr ⟨?_, List.forall_mem_cons.mpr ⟨rfl, allowed⟩⟩
      cases mark <;> rfl
  crosses := by
    intro state rest column count ahead allowed here inside within
    obtain ⟨starts, inhabited, -⟩ := inline.isText column
    have settled : state.Settled := by
      refine ahead.settled ?_ (by simp)
      cases mark <;> simp [StartsToken, isGap, isBlank, isBreak]
    have marked := reaches_mark settled mark allowed (by omega) ahead.here
      (starts.append inhabited _)
    rw [here, ← opened_cursor state column start] at marked
    refine marked.trans ?_
    have line : ∀ d ∈ [c, ' '], isBreak d = false := by
      cases mark <;> decide
    have aheadValue : Ahead ((state.opened column start).wrote [token]
        ((state.opened column start).cursor.past [c, ' ']) true)
        (closeLine (writeInline (column + 2) value)) count rest :=
      @Ahead.past _ [c, ' '] _ _ _ _ _ ahead.opened
    have columnValue : ((state.opened column start).cursor.past [c, ' ']).column = column + 2 := by
      rw [Cursor.past_column line, opened_cursor, here]
      rfl
    have crossed := inline.crosses aheadValue rfl (opened_indent inside) columnValue within
    rw [behind_wrote] at crossed
    exact crossed

theorem length_le_byteLength (text : List Char) : text.length ≤ Text.byteLength text := by
  induction text with
  | nil => exact Nat.le_refl _
  | cons c text ih =>
      have positive := c.utf8Size_pos
      rw [Text.byteLength_cons, List.length_cons]
      omega

theorem exists_writeBehindKey (indent : Nat) (value : Value) :
    ∃ c text, writeBehindKey indent value = c :: text ∧ isGap c = true := by
  cases value with
  | array items => cases items <;> exact ⟨_, _, rfl, rfl⟩
  | object members => cases members <;> exact ⟨_, _, rfl, rfl⟩
  | _ => exact ⟨_, _, rfl, rfl⟩

theorem isBreak_of_isSimpleKey (simple : isSimpleKey key = true) :
    (∀ c ∈ key.toList, isBreak c = false) ∧ Text.byteLength key.toList ≤ 128 := by
  rw [isSimpleKey, Bool.and_eq_true, Bool.not_eq_true', List.any_eq_false,
    decide_eq_true_eq] at simple
  exact ⟨fun c member => by simpa using simple.1 c member, simple.2⟩

theorem writes_of_isSimpleKey (simple : isSimpleKey key = true) (column : Nat) :
    Writes column key.toList (styleOf key = .plain) (writeText column key) :=
  writes_text key fun c member ends =>
    absurd ((isBreak_of_isSimpleKey simple).1 c member) (by simp [ends])

/-- The line that a key begins is closed behind its value. -/
theorem closeLine_keyed (column : Nat) (key : String) (value : Value) :
    closeLine (writeText column key ++ ':' :: writeBehindKey column value) =
      (writeText column key ++ [':']) ++ closeLine (writeBehindKey column value) := by
  obtain ⟨c, text, shape, -⟩ := exists_writeBehindKey column value
  rw [← closeLine_append (by simp [shape])]
  simp

theorem gapFollows_writeBehindKey (column : Nat) (value : Value) (rest : List Char) :
    gapFollows (closeLine (writeBehindKey column value) ++ rest) = true := by
  obtain ⟨c, text, shape, gap⟩ := exists_writeBehindKey column value
  rw [shape, closeLine]
  split <;> exact gap

theorem startsToken_keyed (simple : isSimpleKey key = true) (column : Nat) (value : Value) :
    StartsToken (closeLine (writeText column key ++ ':' :: writeBehindKey column value)) := by
  obtain ⟨starts, inhabited⟩ := startsToken_of_writes (writes_of_isSimpleKey simple column)
  rw [closeLine_keyed, List.append_assoc]
  exact starts.append inhabited _

/-- A key in front of a colon, with its value. -/
theorem crossesBlock_simple (simple : isSimpleKey key = true) (behindKey : CrossesBehindKey value) :
    CrossesBlock .blockMappingStart
      (fun column => closeLine (writeText column key ++ ':' :: writeBehindKey column value))
      (.key :: textToken key :: .value :: behindKeyTokens value) where
  isText column := by
    refine ⟨startsToken_keyed simple column value, ?_, closeLine_closeLine _, ?_⟩
    · simp [closeLine_keyed]
    · rw [closeLine_keyed]
      exact List.forall_mem_append.mpr ⟨List.forall_mem_append.mpr
        ⟨isAllowed_of_mem_writeText key, by decide⟩, behindKey.allowed column⟩
  crosses := by
    intro state rest column count ahead allowed here inside within
    obtain ⟨line, few⟩ := isBreak_of_isSimpleKey simple
    obtain ⟨keyLine, short⟩ := @writeText_of_line column key line
    have settled : state.Settled :=
      ahead.settled (startsToken_keyed simple column value) (by simp [closeLine_keyed])
    rw [closeLine_keyed] at ahead ⊢
    have length := length_le_byteLength key.toList
    have keyed := reaches_key settled (writes_of_isSimpleKey simple column) keyLine (by omega)
      (by omega) allowed (by simpa using ahead.here) (gapFollows_writeBehindKey column value _)
    rw [here, ← opened_cursor state column .blockMappingStart] at keyed
    refine keyed.trans ?_
    have further : ((state.opened column .blockMappingStart).cursor.past
        (writeText column key ++ [':'])).column = column + ((writeText column key).length + 1) := by
      have noBreak : ∀ c ∈ writeText column key ++ [':'], isBreak c = false :=
        List.forall_mem_append.mpr ⟨keyLine, by decide⟩
      rw [Cursor.past_column noBreak, opened_cursor, here, List.length_append,
        List.length_singleton]
    have aheadValue : Ahead ((state.opened column .blockMappingStart).wrote
        [.key, .scalar (styleOf key = .plain) key.toList, .value]
        ((state.opened column .blockMappingStart).cursor.past (writeText column key ++ [':']))
        false) (closeLine (writeBehindKey column value)) count rest := ahead.opened.past
    have indent := @opened_indent state column .blockMappingStart inside
    have crossed := behindKey.crosses aheadValue indent (by
      rw [wrote, further]
      simp only [indent]
      omega) within
    rw [behind_wrote] at crossed
    exact crossed

theorem crossesBlock_of_eq {tokens more : List Token} {front back : Nat → List Char}
    (block : CrossesBlock start front tokens) (text : ∀ column, back column = front column)
    (same : more = tokens) : CrossesBlock start back more := by
  rw [same, funext text]
  exact block

/-- A key with a mark of its own, with its value. -/
theorem crossesBlock_complex (inlineKey : CrossesInline (.string key))
    (inline : CrossesInline value) :
    CrossesBlock .blockMappingStart
      (fun column => '?' :: ' ' :: closeLine (writeText (column + 2) key) ++ (spaces column ++
        ':' :: ' ' :: closeLine (writeInline (column + 2) value)))
      (.key :: textToken key :: .value :: inlineTokens value) :=
  (crossesBlock_mark .key inlineKey).append (crossesBlock_mark .value inline)

end Parts

section Values

variable {state : Tokenizer} {written rest : List Char} {value : Value} {start : Token}
  {front : Nat → List Char} {tokens : List Token} {count column : Nat}

theorem crossesInline_of_flat (text : ∀ indent, writeInline indent value = writeFlat indent value)
    (same : inlineTokens value = flatTokens value) : CrossesInline value where
  isText indent := by
    obtain ⟨starts, inhabited⟩ := startsToken_writeFlat value (Nat.succ_pos (indent + 1))
    rw [text]
    refine ⟨startsToken_closeLine starts inhabited, ?_, closeLine_closeLine _,
      isAllowed_of_mem_closeLine (isAllowed_of_mem_writeFlat value)⟩
    obtain ⟨line, last, shape, -⟩ := exists_closeLine (writeFlat (indent + 2) value)
    simp [shape]
  crosses := by
    intro state rest indent count ahead allowed block here within
    rw [text] at ahead ⊢
    rw [same]
    exact reaches_flat value ahead block (by omega) within

theorem crossesInline_of_block (block : CrossesBlock start front tokens)
    (text : ∀ indent, writeInline indent value = front indent)
    (same : inlineTokens value = start :: tokens ++ [.blockEnd]) : CrossesInline value where
  isText indent := by
    have isText := block.isText (indent + 2)
    rwa [text, isText.closed]
  crosses := by
    intro state rest indent count ahead allowed parent here within
    rw [text, (block.isText (indent + 2)).closed] at ahead ⊢
    rw [same]
    exact block.nested ahead allowed here (by omega) (by omega) (.inr (by omega))

theorem crossesBehindKey_of_flat
    (text : ∀ indent, writeBehindKey indent value = ' ' :: writeFlat (indent + 2) value)
    (same : behindKeyTokens value = flatTokens value) : CrossesBehindKey value := by
  refine ⟨fun indent => ?_, ?_⟩
  · rw [text]
    exact isAllowed_of_mem_closeLine
      (List.forall_mem_cons.mpr ⟨rfl, isAllowed_of_mem_writeFlat value⟩)
  intro state rest indent count ahead block further within
  obtain ⟨starts, inhabited⟩ := startsToken_writeFlat value (Nat.succ_pos (indent + 1))
  have parts : closeLine (writeBehindKey indent value) =
      spaces 1 ++ closeLine (writeFlat (indent + 2) value) := by
    rw [text, ← closeLine_append inhabited]
    rfl
  rw [parts] at ahead ⊢
  have startsLine := startsToken_closeLine starts inhabited
  obtain ⟨line, last, shape, -⟩ := exists_closeLine (writeFlat (indent + 2) value)
  have here := ahead.here
  rw [List.append_assoc] at here
  have space := reaches_spaces ahead.noKey ahead.noFlow here
    (startsLine.append (by simp [shape]) _) ahead.enough
  refine space.trans ?_
  have aheadValue : Ahead { state with cursor := state.cursor.past (spaces 1) }
      (closeLine (writeFlat (indent + 2) value)) count rest := by
    have after := Cursor.past_rest here
    refine ⟨after, ahead.starts, ahead.noKey, ahead.noFlow, ?_⟩
    have enough := ahead.enough
    rw [here, List.length_append] at enough
    simp only [after]
    omega
  have crossed := reaches_flat value aheadValue block (by
    simp only [Cursor.past_column isBreak_of_mem_spaces]
    omega) within
  rw [same]
  simpa only [behind, wrote, Cursor.past_append] using crossed

/-- A break in front of a block. -/
theorem reaches_nextLine (ahead : Ahead state ('\n' :: (spaces column ++ written)) count rest)
    (isText : IsBlockText written) :
    Reaches state (state.behind [] ['\n'] column) ∧
      Ahead (state.behind [] ['\n'] column) written count rest ∧
      (state.behind [] ['\n'] column).cursor.column = column := by
  refine ⟨?_, ?_, @column_behind_closeLine state [] column ['\n']⟩
  · have here : state.cursor.rest =
        '\n' :: (spaces column ++ (written ++ (spaces count ++ rest))) := by
      rw [ahead.here]
      simp
    have noKey := ahead.noKey
    exact reaches_line (by rw [noKey]; rfl) ahead.noFlow here
      (isText.starts.append isText.inhabited _) (by simp [noKey]) ahead.enough
  · exact @Ahead.past state ('\n' :: spaces column) written rest [] count true ahead

theorem closeLine_nextLine {indent : Nat} (isText : IsBlockText written)
    (text : writeBehindKey indent value = '\n' :: (spaces column ++ written)) :
    closeLine (writeBehindKey indent value) = '\n' :: (spaces column ++ written) := by
  have close := @closeLine_append ('\n' :: spaces column) _ isText.inhabited
  rw [isText.closed] at close
  rw [text]
  exact close

theorem isAllowed_nextLine (isText : IsBlockText written) :
    ∀ c ∈ '\n' :: (spaces column ++ written), isAllowed c = true :=
  List.forall_mem_cons.mpr
    ⟨rfl, List.forall_mem_append.mpr ⟨isAllowed_of_mem_spaces, isText.allowed⟩⟩

theorem crossesBehindKey_of_items (block : CrossesBlock start front tokens)
    (text : ∀ indent, writeBehindKey indent value = '\n' :: (spaces indent ++ front indent))
    (same : behindKeyTokens value = tokens) : CrossesBehindKey value where
  allowed indent := by
    rw [closeLine_nextLine (block.isText indent) (text indent)]
    exact isAllowed_nextLine (block.isText indent)
  crosses := by
    intro state rest indent count ahead parent further within
    rw [closeLine_nextLine (block.isText indent) (text indent)] at ahead ⊢
    obtain ⟨line, aheadBlock, here⟩ := reaches_nextLine ahead (block.isText indent)
    have goesOn : (state.behind [] ['\n'] indent).indent = indent := parent
    have crossed := block.crosses aheadBlock rfl here goesOn.le within
    rw [opened_of_le goesOn.ge, behind_behind] at crossed
    rw [same]
    exact line.trans crossed

theorem crossesBehindKey_of_members (block : CrossesBlock start front tokens)
    (text : ∀ indent, writeBehindKey indent value =
      '\n' :: (spaces (indent + 2) ++ front (indent + 2)))
    (same : behindKeyTokens value = start :: tokens ++ [.blockEnd]) : CrossesBehindKey value where
  allowed indent := by
    rw [closeLine_nextLine (block.isText (indent + 2)) (text indent)]
    exact isAllowed_nextLine (block.isText (indent + 2))
  crosses := by
    intro state rest indent count ahead parent further within
    rw [closeLine_nextLine (block.isText (indent + 2)) (text indent)] at ahead ⊢
    obtain ⟨line, aheadBlock, here⟩ := reaches_nextLine ahead (block.isText (indent + 2))
    have below : (state.behind [] ['\n'] (indent + 2)).indent < (indent + 2 : Nat) := by
      rw [behind, wrote, parent]
      omega
    have crossed := block.nested aheadBlock rfl here below (by omega) (.inr (by omega))
    rw [behind_behind] at crossed
    rw [same]
    exact line.trans crossed

/-- An entry of a mapping. -/
theorem crossesBlock_member (key : String) (behindKey : CrossesBehindKey value)
    (inline : CrossesInline value) :
    CrossesBlock .blockMappingStart (fun column => writeMember column (key, value))
      (.key :: textToken key :: .value ::
        if isSimpleKey key then behindKeyTokens value else inlineTokens value) := by
  cases simple : isSimpleKey key with
  | true =>
      exact crossesBlock_of_eq (crossesBlock_simple simple behindKey)
        (fun column => by rw [writeMember, if_pos simple]) rfl
  | false =>
      have inlineKey : CrossesInline (.string key) := crossesInline_of_flat (fun _ => rfl) rfl
      refine crossesBlock_of_eq (crossesBlock_complex inlineKey inline) (fun column => ?_) rfl
      rw [writeMember, simple, if_neg Bool.false_ne_true]
      simp

mutual

theorem crossesInline (value : Value) : CrossesInline value :=
  match value with
  | .array (item :: items) =>
      crossesInline_of_block (crossesItems (item :: items) (by simp)) (fun _ => rfl) rfl
  | .object (member :: members) =>
      crossesInline_of_block (crossesMembers (member :: members) (by simp)) (fun _ => rfl) rfl
  | .array [] => crossesInline_of_flat (fun _ => rfl) rfl
  | .object [] => crossesInline_of_flat (fun _ => rfl) rfl
  | .null => crossesInline_of_flat (fun _ => rfl) rfl
  | .bool value => crossesInline_of_flat (fun _ => rfl) rfl
  | .number value => crossesInline_of_flat (fun _ => rfl) rfl
  | .string text => crossesInline_of_flat (fun _ => rfl) rfl

theorem crossesBehindKey (value : Value) : CrossesBehindKey value :=
  match value with
  | .array (item :: items) =>
      crossesBehindKey_of_items (crossesItems (item :: items) (by simp)) (fun _ => rfl) rfl
  | .object (member :: members) =>
      crossesBehindKey_of_members (crossesMembers (member :: members) (by simp)) (fun _ => rfl) rfl
  | .array [] => crossesBehindKey_of_flat (fun _ => rfl) rfl
  | .object [] => crossesBehindKey_of_flat (fun _ => rfl) rfl
  | .null => crossesBehindKey_of_flat (fun _ => rfl) rfl
  | .bool value => crossesBehindKey_of_flat (fun _ => rfl) rfl
  | .number value => crossesBehindKey_of_flat (fun _ => rfl) rfl
  | .string text => crossesBehindKey_of_flat (fun _ => rfl) rfl

theorem crossesItems (items : List Value) (inhabited : items ≠ []) :
    CrossesBlock .blockSequenceStart (fun column => writeItems column items) (itemTokens items) :=
  match items, inhabited with
  | [item], _ =>
      crossesBlock_of_eq (crossesBlock_mark .entry (crossesInline item)) (fun _ => rfl) (by
        simp [itemTokens])
  | item :: next :: items, _ =>
      crossesBlock_of_eq ((crossesBlock_mark .entry (crossesInline item)).append
        (crossesItems (next :: items) (by simp))) (fun column => by simp [writeItems]) rfl

theorem crossesMembers (members : List (String × Value)) (inhabited : members ≠ []) :
    CrossesBlock .blockMappingStart (fun column => writeMembers column members)
      (memberTokens members) :=
  match members, inhabited with
  | [(key, value)], _ =>
      crossesBlock_of_eq (crossesBlock_member key (crossesBehindKey value) (crossesInline value))
        (fun _ => rfl) (by simp [memberTokens])
  | (key, value) :: next :: members, _ =>
      crossesBlock_of_eq
        ((crossesBlock_member key (crossesBehindKey value) (crossesInline value)).append
          (crossesMembers (next :: members) (by simp)))
        (fun column => by simp [writeMembers]) rfl

end

end Values

end Tokenizer

open Tokenizer in
/-- The text of a mapping with entries has the tokens of the mapping. -/
theorem tokens?_write {members : Members} (inhabited : members ≠ []) :
    tokens? (write (.object members)).toList = some (inlineTokens (.object members)) := by
  obtain ⟨member, members, rfl⟩ := List.exists_cons_of_ne_nil inhabited
  have block := crossesMembers (member :: members) inhabited
  have isText := block.isText 0
  have text : (write (.object (member :: members))).toList =
      writeMembers 0 (member :: members) := String.toList_ofList.trans isText.closed
  rw [text, tokens?, List.all_eq_true.mpr isText.allowed]
  have ahead : Ahead {
      cursor := { rest := writeMembers 0 (member :: members) }
      bound := (writeMembers 0 (member :: members)).length + 1 }
      (writeMembers 0 (member :: members)) 0 [] :=
    ⟨by simp [spaces], fun c first => (by cases first), rfl, rfl, Nat.lt_succ_self _⟩
  obtain ⟨used, shorter, same⟩ := block.nested ahead rfl rfl
    (by decide : (-1 : Int) < ((0 : Nat) : Int)) (Nat.le_refl 0) (.inl rfl)
  obtain ⟨left, length⟩ := Nat.exists_eq_add_of_le (Nat.le_of_add_right_le shorter)
  have bound : (writeMembers 0 (member :: members)).length + 1 = left + 1 + used := by
    simp only at length
    omega
  have steps := same (left + 1)
  rw [← bound] at steps
  have settled := @Ahead.settled_behind _ _ _ (inlineTokens (.object (member :: members))) 0 ahead
  have ended := run?_end settled (Cursor.past_rest (by simp [spaces])) rfl left
  rw [if_pos rfl]
  refine steps.trans (ended.trans ?_)
  simp [behind, wrote, inlineTokens]

end ApiAssembly.Yaml
