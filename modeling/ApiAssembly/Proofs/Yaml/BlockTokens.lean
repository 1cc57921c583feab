import ApiAssembly.Proofs.Yaml.ScalarTokens

/-!
# Tokens of blocks

The mark of an item, and a key with its colon or with a mark of its own.  In front of them a
block begins if they are indented further than the block around them.
-/

namespace ApiAssembly.Yaml.Tokenizer

section Opening

variable {state : Tokenizer} {column : Nat} {token : Token}

/-- The state in which a block at a column has begun, unless it goes on. -/
def opened (state : Tokenizer) (column : Nat) (token : Token) : Tokenizer :=
  if state.indent < column then
    { state.push token with indent := column, outerIndents := state.indent :: state.outerIndents }
  else state

theorem opened_cursor (state : Tokenizer) (column : Nat) (token : Token) :
    (state.opened column token).cursor = state.cursor := by
  rw [opened]
  split <;> rfl

theorem opened_indent (inside : state.indent ≤ column) :
    (state.opened column token).indent = column := by
  rw [opened]
  split
  · rfl
  · omega

theorem Settled.opened (settled : state.Settled) : (state.opened column token).Settled := by
  rw [Tokenizer.opened]
  split
  · exact ⟨settled.starts, settled.noKey, settled.noFlow, settled.enough⟩
  · exact settled

theorem opened_of_le (goesOn : column ≤ state.indent) : state.opened column token = state :=
  if_neg (by omega)

theorem roll_count (noFlow : state.outer = []) :
    state.roll column state.count token = state.opened column token := by
  rw [roll, opened]
  simp [inFlow, noFlow, insert, push]

end Opening

section Keys

variable {state : Tokenizer} {text written rest : List Char} {plain : Bool} {indent : Nat}

theorem token?_colon (here : state.cursor.rest = ':' :: rest)
    (gap : gapFollows rest = true) : state.token? ':' rest = state.value? := by
  have noMark (mark : Char) (different : ':' ≠ mark) := atMark_of_ne here different
  simp [token?, noMark, gap]

/-- The colon behind a scalar makes it a key. -/
theorem value?_nextKey (noFlow : state.outer = []) (allowed : state.keyAllowed = true)
    (token : Token) (cursor : Cursor) :
    value? { state with
      cursor
      reversed := token :: state.reversed
      count := state.count + 1
      possible := state.nextKey
      keyAllowed := false } =
    some ((state.opened state.cursor.column .blockMappingStart).wrote [.key, token, .value]
      (cursor.advance 1) false) := by
  rw [nextKey, if_pos allowed]
  have later : state.count + 1 + 1 - state.count = 2 := by omega
  by_cases below : state.indent < state.cursor.column
  · simp [value?, insert, roll, inFlow, noFlow, opened, below, take, push, wrote, later]
  · simp [value?, insert, roll, inFlow, noFlow, opened, below, take, push, wrote]

/-- The state behind the scalar of a key, where the key is noted. -/
def behindScalar (state : Tokenizer) (token : Token) (written : List Char) : Tokenizer :=
  { state with
    cursor := state.cursor.past written
    reversed := token :: state.reversed
    count := state.count + 1
    possible := state.nextKey
    keyAllowed := false }

/-- The scalar of a key. -/
theorem reaches_keyScalar (settled : state.Settled) (writes : Writes indent text plain written)
    (line : ∀ c ∈ written, isBreak c = false) (inside : state.indent ≤ state.cursor.column)
    (here : state.cursor.rest = written ++ ':' :: rest) (gap : gapFollows rest = true) :
    Reaches state (state.behindScalar (.scalar plain text) written) := by
  have after := Cursor.past_rest here
  cases writes with
  | plain plain =>
      have ends : PlainEnd (state.indent + 1) (':' :: rest) false [] := .colon gap
      have scalar := settled.plainScalar?_eq plain ends here (by simp) inside
      rw [List.append_nil] at scalar
      obtain ⟨c, more, rfl⟩ := List.exists_cons_of_ne_nil plain.inhabited
      have token := (token?_of_isPlainText settled.noFlow plain ends here).trans scalar
      refine reaches_token settled.fresh here inside token ?_
      simp only [behindScalar, after, here, List.length_append, List.length_cons]
      omega
  | @quoted single encode body enquotes =>
      have scalar := settled.quotedScalar?_eq enquotes here (by simp)
      have token := (token?_quoteMark settled.noFlow here).trans scalar
      refine reaches_token settled.fresh here inside token ?_
      simp only [behindScalar, after, here, List.length_append, List.length_cons]
      omega
  | literal =>
      have member : '\n' ∈ writeLiteral indent text := by simp [writeLiteral]
      exact absurd (line '\n' member) (by decide)

/-- The colon is read next, on the line of the key. -/
theorem Settled.fresh_behindScalar (settled : state.Settled) (token : Token)
    (line : ∀ c ∈ written, isBreak c = false) (short : written.length ≤ 1024)
    (here : state.cursor.rest = written ++ ':' :: rest) :
    (state.behindScalar token written).Fresh := by
  have after := Cursor.past_rest here
  constructor
  case starts => simp [behindScalar, after, StartsToken, isGap, isBlank, isBreak]
  case kept =>
    have kept : refresh? (state.cursor.past written) state.nextKey = some state.nextKey :=
      refresh?_nextKey (Cursor.past_line line) (by rw [Cursor.past_index]; omega)
    rw [behindScalar, Tokenizer.dropStaleKeys?_eq (by exact settled.noFlow), kept]
    rfl
  case enough =>
    have length : (':' :: rest).length ≤ state.cursor.rest.length := by
      rw [here]
      simp
    simp only [behindScalar, after]
    exact Nat.lt_of_le_of_lt length settled.enough

/-- A key with its colon. -/
theorem reaches_key (settled : state.Settled) (writes : Writes indent text plain written)
    (line : ∀ c ∈ written, isBreak c = false) (short : written.length ≤ 1024)
    (inside : state.indent ≤ state.cursor.column) (allowed : state.keyAllowed = true)
    (here : state.cursor.rest = written ++ ':' :: rest) (gap : gapFollows rest = true) :
    Reaches state ((state.opened state.cursor.column .blockMappingStart).wrote
      [.key, .scalar plain text, .value] (state.cursor.past (written ++ [':'])) false) := by
  have after := Cursor.past_rest here
  refine (reaches_keyScalar settled writes line inside here gap).trans ?_
  have column : state.cursor.column ≤ (state.cursor.past written).column := by
    rw [Cursor.past_column line]
    omega
  have move : (state.cursor.past written).advance 1 = state.cursor.past (written ++ [':']) := by
    have step : (state.cursor.past written).advance 1 = (state.cursor.past written).step ':' :=
      Cursor.advance_one rfl
    rw [Cursor.past_append, step]
    rfl
  have marked := value?_nextKey settled.noFlow allowed (.scalar plain text)
    (state.cursor.past written)
  rw [move] at marked
  refine reaches_token (settled.fresh_behindScalar _ line short here) after
    (by rw [behindScalar]; simp only; omega)
    ((@token?_colon (state.behindScalar (.scalar plain text) written) rest after gap).trans
      marked) ?_
  rw [wrote, Cursor.past_append]
  simp [behindScalar, after]

end Keys

section Marks

variable {state : Tokenizer} {rest : List Char} {c : Char} {start token : Token}

/-- The marks of parts of blocks, with the tokens of the block and of the mark. -/
inductive BlockMark : Char → Token → Token → Prop
  | entry : BlockMark '-' .blockSequenceStart .blockEntry
  | key : BlockMark '?' .blockMappingStart .key
  | value : BlockMark ':' .blockMappingStart .value

theorem atMark_of_space {cursor : Cursor} {mark : Char} (here : cursor.rest = c :: ' ' :: rest)
    (different : ' ' ≠ mark) : cursor.atMark mark = false := by
  rw [Cursor.atMark, here]
  split
  next same =>
    cases same
    simp [different]
  next => simp

theorem token?_blockMark (settled : state.Settled) (mark : BlockMark c start token)
    (allowed : state.keyAllowed = true) (here : state.cursor.rest = c :: ' ' :: rest) :
    state.token? c (' ' :: rest) = some ((state.opened state.cursor.column start).wrote [token]
      (state.cursor.step c) true) := by
  have noMark (mark : Char) (different : ' ' ≠ mark) := atMark_of_space here different
  have begun (start : Token) :
      state.beginBlock? start = some (state.opened state.cursor.column start) := by
    rw [beginBlock?, roll_count settled.noFlow]
    simp [inFlow, settled.noFlow, allowed]
  have opened : (state.opened state.cursor.column start).Settled := settled.opened
  have outside : (state.opened state.cursor.column start).inFlow = false := by
    simp [inFlow, opened.noFlow]
  have noKey := opened.noKey
  have gap : gapFollows (' ' :: rest) = true := rfl
  have line : isBreak c = false := by
    cases mark <;> rfl
  have move := @Cursor.advance_one state.cursor c line
  cases mark with
  | entry =>
      simp [token?, noMark, gap, blockEntry?, begun, dropKey?, noKey, take, push, wrote,
        opened_cursor, move]
  | key =>
      simp [token?, noMark, gap, key?, begun, dropKey?, noKey, take, push, wrote, opened_cursor,
        move, inFlow, settled.noFlow]
  | value =>
      simp [token?, noMark, gap, value?, settled.noKey, begun, noKey, take, push, wrote,
        opened_cursor, move, inFlow, settled.noFlow]

/-- A mark with a space behind it. -/
theorem reaches_mark (settled : state.Settled) (mark : BlockMark c start token)
    (allowed : state.keyAllowed = true) (inside : state.indent ≤ state.cursor.column)
    (here : state.cursor.rest = c :: ' ' :: rest) (starts : StartsToken rest) :
    Reaches state ((state.opened state.cursor.column start).wrote [token]
      (state.cursor.past [c, ' ']) true) := by
  have after : (state.cursor.step c).rest = spaces 1 ++ rest := by
    rw [Cursor.step_rest, here]
    rfl
  have opened : (state.opened state.cursor.column start).Settled := settled.opened
  have marked := reaches_token settled.fresh here inside
    (token?_blockMark settled mark allowed here) (by rw [wrote, after, here]; simp [spaces])
  refine marked.trans ?_
  have enough := settled.enough
  rw [here] at enough
  have bound : (state.opened state.cursor.column start).bound = state.bound := by
    rw [Tokenizer.opened]
    split <;> rfl
  refine @reaches_spaces ((state.opened state.cursor.column start).wrote [token]
    (state.cursor.step c) true) rest 1 rfl opened.noFlow after starts ?_
  simp only [wrote, after, bound]
  exact Nat.lt_of_succ_lt enough

end Marks

end ApiAssembly.Yaml.Tokenizer
