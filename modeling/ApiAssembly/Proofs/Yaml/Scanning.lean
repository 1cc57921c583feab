import ApiAssembly.Proofs.Text.Search
import ApiAssembly.Proofs.Yaml.Gap
import ApiAssembly.Yaml.Token

/-!
# Cutting written text into tokens

A state of the tokenizer reaches another one if cutting off tokens goes on in the same way from
both.  The steps are those of the tokenizer: gaps in front of a token are gone over, blocks
that are indented further than the token end, and the token is cut off.
-/

namespace ApiAssembly.Yaml

namespace Tokenizer

section Reaching

variable {state later last : Tokenizer}

/-- The tokens of a text are the same from both states; the number of tokens cut off in between
is at most that of the characters gone over. -/
def Reaches (state later : Tokenizer) : Prop :=
  ∃ used, used + later.cursor.rest.length ≤ state.cursor.rest.length ∧
    ∀ fuel, run? (fuel + used) state = run? fuel later

theorem Reaches.refl (state : Tokenizer) : Reaches state state :=
  ⟨0, by omega, fun _ => rfl⟩

theorem Reaches.trans (first : Reaches state later) (second : Reaches later last) :
    Reaches state last := by
  obtain ⟨used, shorter, same⟩ := first
  obtain ⟨more, evenShorter, again⟩ := second
  refine ⟨more + used, by omega, fun fuel => ?_⟩
  rw [← Nat.add_assoc, same, again]

/-- What a token other than a block's begins with. -/
def StartsToken (text : List Char) : Prop :=
  ∀ c ∈ text.head?, isGap c = false ∧ c ≠ '#' ∧ c ≠ '\ufeff'

theorem StartsToken.endsGap {text : List Char} (starts : StartsToken text) : EndsGap text :=
  fun c member => (starts c member).1

/-- A state in front of a token, outside of brackets and with no possible key. -/
structure Settled (state : Tokenizer) : Prop where
  starts : StartsToken state.cursor.rest
  noKey : state.possible = none
  noFlow : state.outer = []
  enough : state.cursor.rest.length < state.bound

/-- The state in which tokens are written and the cursor has moved on. -/
def wrote (state : Tokenizer) (tokens : List Token) (cursor : Cursor) (keyAllowed : Bool) :
    Tokenizer :=
  { state with
    cursor, keyAllowed
    reversed := tokens.reverse ++ state.reversed
    count := state.count + tokens.length
    possible := none }

@[simp]
theorem wrote_wrote (state : Tokenizer) (first second : List Token) (cursor last : Cursor)
    (keyAllowed allowed : Bool) :
    (state.wrote first cursor keyAllowed).wrote second last allowed =
      state.wrote (first ++ second) last allowed := by
  simp [wrote, Nat.add_assoc]

end Reaching

section Gaps

variable {state : Tokenizer} {rest : List Char} {count : Nat}

theorem skipComment_of_startsToken {cursor : Cursor} (starts : StartsToken cursor.rest) :
    cursor.skipComment = cursor := by
  rw [Cursor.skipComment, if_neg]
  intro comment
  exact (starts '#' comment).2.1 rfl

/-- Spaces in front of a token. -/
theorem skipGaps_spaces (here : state.cursor.rest = spaces count ++ rest)
    (starts : StartsToken rest) {fuel : Nat} (enough : 0 < fuel) :
    skipGaps fuel state = { state with cursor := state.cursor.past (spaces count) } := by
  obtain ⟨fuel, rfl⟩ := Nat.exists_eq_add_of_le' enough
  have after := Cursor.past_rest here
  have taken : state.cursor.advanceWhile (fun c => decide (c = ' ') ||
      ((state.inFlow || !state.keyAllowed) && decide (c = '\t'))) =
      state.cursor.past (spaces count) := by
    have cut := @Text.span_append (fun c => decide (c = ' ') ||
        ((state.inFlow || !state.keyAllowed) && decide (c = '\t'))) (spaces count) rest
      (fun c member => by simp [List.eq_of_mem_replicate member]) (fun c member => by
        have noGap := (starts c member).1
        have noSpace : c ≠ ' ' := by
          rintro rfl
          cases noGap
        have noTab : c ≠ '\t' := by
          rintro rfl
          cases noGap
        simp [noSpace, noTab])
    rw [List.span_eq_takeWhile_dropWhile, ← here] at cut
    have front := congrArg Prod.fst cut
    simp only at front
    rw [Cursor.advanceWhile, front]
    exact Cursor.advance_length state.cursor isBreak_of_mem_spaces
  have noBreak : rest.head?.any isBreak = false := by
    cases first : rest.head? with
    | none => rfl
    | some c => exact EndsGap.noBreak starts.endsGap c first
  have stays := @skipComment_of_startsToken (state.cursor.past (spaces count)) (after ▸ starts)
  rw [skipGaps]
  simp only [taken, stays, after, noBreak, Bool.false_eq_true, if_false]

theorem skipGaps_of_startsToken (starts : StartsToken state.cursor.rest) {fuel : Nat}
    (enough : 0 < fuel) : skipGaps fuel state = state :=
  @skipGaps_spaces state state.cursor.rest 0 rfl starts fuel enough

/-- The end of a line, and the indentation of a token on the next line. -/
theorem skipGaps_line (noFlow : state.outer = [])
    (here : state.cursor.rest = '\n' :: (spaces count ++ rest)) (starts : StartsToken rest)
    {fuel : Nat} (enough : 1 < fuel) : skipGaps fuel state = { state with
      cursor := state.cursor.past ('\n' :: spaces count), keyAllowed := true } := by
  obtain ⟨fuel, rfl⟩ := Nat.exists_eq_add_of_le' enough
  have stays : state.cursor.advanceWhile (fun c => decide (c = ' ') ||
      ((state.inFlow || !state.keyAllowed) && decide (c = '\t'))) = state.cursor := by
    rw [Cursor.advanceWhile, here, List.takeWhile_cons_of_neg (by simp)]
    rfl
  have noComment : state.cursor.skipComment = state.cursor := by
    rw [Cursor.skipComment, Cursor.peek?, here]
    rfl
  have next : ({ state with cursor := state.cursor.step '\n', keyAllowed := true } :
      Tokenizer).cursor.rest = spaces count ++ rest := by
    rw [Cursor.step_rest, here]
    rfl
  have allowed : (state.keyAllowed || !state.inFlow) = true := by
    simp [inFlow, noFlow]
  rw [skipGaps]
  simp only [stays, noComment, here, List.head?_cons, Option.any_some, allowed,
    Cursor.takeBreak_eq rfl here]
  rw [skipGaps_spaces next starts (Nat.succ_pos _)]
  rfl

end Gaps

section Settling

variable {state : Tokenizer} {rest : List Char} {count : Nat}

theorem skipByteOrderMark_of_head? (noMark : state.cursor.rest.head? ≠ some '\ufeff') :
    state.skipByteOrderMark = state := by
  rw [skipByteOrderMark, Cursor.peek?, decide_eq_false noMark, Bool.and_false, if_neg]
  exact Bool.false_ne_true

theorem dropStaleKeys?_eq (noFlow : state.outer = []) :
    state.dropStaleKeys? = (refresh? state.cursor state.possible).map fun possible =>
      { state with possible } := by
  obtain ⟨cursor, bound, reversed, count, indent, outerIndents, possible, outer, keyAllowed⟩ :=
    state
  obtain rfl : outer = [] := noFlow
  rw [dropStaleKeys?]
  cases refresh? cursor possible <;> rfl

theorem Settled.dropStaleKeys?_eq (settled : state.Settled) :
    state.dropStaleKeys? = some state := by
  rw [Tokenizer.dropStaleKeys?_eq settled.noFlow, settled.noKey]
  obtain ⟨cursor, bound, reversed, count, indent, outerIndents, possible, outer, keyAllowed⟩ :=
    state
  obtain rfl : possible = none := settled.noKey
  rfl

theorem Settled.noMark (settled : state.Settled) : state.cursor.rest.head? ≠ some '\ufeff' :=
  fun mark => (settled.starts _ mark).2.2 rfl

theorem Settled.skipGaps_eq (settled : state.Settled) : skipGaps state.bound state = state :=
  skipGaps_of_startsToken settled.starts (Nat.lt_of_le_of_lt (Nat.zero_le _) settled.enough)

/-- Going over gaps and giving up a possible key that is left behind is no step of its own. -/
theorem reaches_settled {settled : Tokenizer} (isSettled : settled.Settled)
    (noMark : state.cursor.rest.head? ≠ some '\ufeff')
    (fresh : (skipGaps state.bound state).dropStaleKeys? = some settled)
    (shorter : settled.cursor.rest.length ≤ state.cursor.rest.length) :
    Reaches state settled := by
  refine ⟨0, by omega, fun fuel => ?_⟩
  cases fuel with
  | zero => rfl
  | succ fuel =>
      rw [Nat.add_zero, run?, run?, skipByteOrderMark_of_head? noMark,
        skipByteOrderMark_of_head? isSettled.noMark, fresh, isSettled.skipGaps_eq,
        isSettled.dropStaleKeys?_eq]

/-- A possible key that is not required. -/
def IsOptional (key : Option PossibleKey) : Prop :=
  key.any PossibleKey.required = false

/-- Spaces in front of a token on the same line. -/
theorem reaches_spaces (noKey : state.possible = none) (noFlow : state.outer = [])
    (here : state.cursor.rest = spaces count ++ rest) (starts : StartsToken rest)
    (enough : state.cursor.rest.length < state.bound) :
    Reaches state { state with cursor := state.cursor.past (spaces count) } := by
  have after := Cursor.past_rest here
  have length : rest.length ≤ state.cursor.rest.length := by
    rw [here, List.length_append]
    omega
  have settled : Settled { state with cursor := state.cursor.past (spaces count) } :=
    ⟨by rw [after]; exact starts, noKey, noFlow, by simp only [after]; omega⟩
  have noMark : state.cursor.rest.head? ≠ some '\ufeff' := by
    rw [here]
    cases count with
    | zero => exact fun mark => (starts _ mark).2.2 rfl
    | succ count => simp [spaces, List.replicate_succ]
  have fresh : (skipGaps state.bound state).dropStaleKeys? =
      some { state with cursor := state.cursor.past (spaces count) } := by
    rw [skipGaps_spaces here starts (by omega), settled.dropStaleKeys?_eq]
  exact reaches_settled settled noMark fresh (by simp only [after]; exact length)

theorem refresh?_of_line_lt {cursor : Cursor} {possible : Option PossibleKey}
    (optional : IsOptional possible) (left : ∀ key ∈ possible, key.line < cursor.line) :
    refresh? cursor possible = some none := by
  cases possible with
  | none => rfl
  | some key =>
      have stale : isStale cursor key = true := by simp [isStale, left key rfl]
      have notRequired : key.required = false := optional
      rw [refresh?, if_pos stale, notRequired, if_neg Bool.false_ne_true]

/-- A possible key on the line of the cursor is kept for a while. -/
theorem refresh?_of_line_eq {cursor : Cursor} {key : PossibleKey} (line : key.line = cursor.line)
    (near : cursor.index ≤ key.index + 1024) : refresh? cursor (some key) = some (some key) := by
  have fresh : isStale cursor key = false := by
    simp only [isStale, line, Bool.or_eq_false_iff, decide_eq_false_iff_not]
    omega
  rw [refresh?, fresh, if_neg Bool.false_ne_true]

/-- A possible key on an earlier line is given up. -/
theorem reaches_freshLine (starts : StartsToken state.cursor.rest)
    (optional : IsOptional state.possible) (noFlow : state.outer = [])
    (left : ∀ key ∈ state.possible, key.line < state.cursor.line)
    (enough : state.cursor.rest.length < state.bound) :
    Reaches state { state with possible := none } := by
  have settled : Settled { state with possible := none } := ⟨starts, rfl, noFlow, enough⟩
  have fresh : (skipGaps state.bound state).dropStaleKeys? =
      some { state with possible := none } := by
    rw [skipGaps_of_startsToken starts (by omega), dropStaleKeys?_eq noFlow,
      refresh?_of_line_lt optional left]
    rfl
  exact reaches_settled settled settled.noMark fresh (Nat.le_refl _)

/-- The end of a line, where a possible key is given up, and the indentation of the token on
the next line. -/
theorem reaches_line (optional : IsOptional state.possible) (noFlow : state.outer = [])
    (here : state.cursor.rest = '\n' :: (spaces count ++ rest)) (starts : StartsToken rest)
    (noted : ∀ key ∈ state.possible, key.line ≤ state.cursor.line)
    (enough : state.cursor.rest.length < state.bound) :
    Reaches state (state.wrote [] (state.cursor.past ('\n' :: spaces count)) true) := by
  have after : (state.cursor.past ('\n' :: spaces count)).rest = rest :=
    Cursor.past_rest (by rw [here]; rfl)
  have length : rest.length + 1 ≤ state.cursor.rest.length := by
    rw [here, List.length_cons, List.length_append]
    omega
  have settled : Settled (state.wrote [] (state.cursor.past ('\n' :: spaces count)) true) :=
    ⟨by rw [wrote, after]; exact starts, rfl, noFlow, by simp only [wrote, after]; omega⟩
  have noMark : state.cursor.rest.head? ≠ some '\ufeff' := by
    rw [here]
    simp
  have left : ∀ key ∈ state.possible,
      key.line < (state.cursor.past ('\n' :: spaces count)).line := by
    intro key member
    exact Nat.lt_of_le_of_lt (noted key member) (Cursor.line_lt_past List.mem_cons_self rfl)
  have fresh : (skipGaps state.bound state).dropStaleKeys? =
      some (state.wrote [] (state.cursor.past ('\n' :: spaces count)) true) := by
    rw [skipGaps_line noFlow here starts (by omega), dropStaleKeys?_eq (by exact noFlow),
      refresh?_of_line_lt optional left]
    rfl
  exact reaches_settled settled noMark fresh (by simp only [wrote, after]; omega)

end Settling

section Steps

variable {state next : Tokenizer} {c : Char} {rest : List Char}

theorem unrollTo_of_le {column : Int} (inside : state.indent ≤ column) :
    state.unrollTo column = state := by
  rw [unrollTo]
  split
  · rfl
  · cases outer : state.outerIndents with
    | nil => rfl
    | cons around outerIndents => rw [unroll, if_pos inside]

/-- A state in front of a token in which no possible key is left behind. -/
structure Fresh (state : Tokenizer) : Prop where
  starts : StartsToken state.cursor.rest
  kept : state.dropStaleKeys? = some state
  enough : state.cursor.rest.length < state.bound

theorem Settled.fresh (settled : state.Settled) : state.Fresh :=
  ⟨settled.starts, settled.dropStaleKeys?_eq, settled.enough⟩

theorem Fresh.run?_eq (fresh : state.Fresh) (fuel : Nat) :
    run? (fuel + 1) state = match state.cursor.rest with
      | [] => (state.unrollTo (-1)).dropKey?.map fun ended => ended.reversed.reverse
      | c :: rest => ((state.unrollTo state.cursor.column).token? c rest).bind (run? fuel) := by
  have bound := fresh.enough
  have noMark : state.cursor.rest.head? ≠ some '\ufeff' :=
    fun mark => (fresh.starts _ mark).2.2 rfl
  rw [run?, skipByteOrderMark_of_head? noMark, skipGaps_of_startsToken fresh.starts (by omega),
    Option.bind_eq_bind, fresh.kept, Option.bind_some]
  cases shape : state.cursor.rest with
  | nil => cases (state.unrollTo (-1)).dropKey? <;> rfl
  | cons c rest => rfl

/-- A token of a block that goes on. -/
theorem reaches_token (fresh : state.Fresh) (here : state.cursor.rest = c :: rest)
    (inside : state.indent ≤ state.cursor.column) (token : state.token? c rest = some next)
    (shorter : next.cursor.rest.length < state.cursor.rest.length) : Reaches state next := by
  refine ⟨1, by omega, fun fuel => ?_⟩
  rw [fresh.run?_eq, here]
  simp only [unrollTo_of_le inside, token, Option.bind_some]

/-- The state in which the innermost block has ended. -/
def closeBlock (state : Tokenizer) : Tokenizer :=
  match state.outerIndents with
  | [] => state
  | around :: outerIndents => { state.push .blockEnd with indent := around, outerIndents }

theorem unrollTo_closeBlock {column : Int} (noFlow : state.outer = [])
    (outside : column < state.indent) :
    state.closeBlock.unrollTo column = state.unrollTo column := by
  cases shape : state.outerIndents with
  | nil => rw [closeBlock, shape]
  | cons around outerIndents =>
      have notInside : ¬state.indent ≤ column := by omega
      have closed : state.closeBlock =
          { state.push .blockEnd with indent := around, outerIndents } := by
        rw [closeBlock, shape]
      rw [closed]
      simp only [unrollTo, inFlow, push, noFlow, List.isEmpty_nil, Bool.not_true,
        Bool.false_eq_true, if_false, shape, unroll, notInside]

theorem closeBlock_cursor (state : Tokenizer) : state.closeBlock.cursor = state.cursor := by
  rw [closeBlock]
  split <;> rfl

theorem Settled.closeBlock (settled : state.Settled) : state.closeBlock.Settled := by
  rw [Tokenizer.closeBlock]
  split
  · exact settled
  · exact ⟨settled.starts, settled.noKey, settled.noFlow, settled.enough⟩

/-- A block ends in front of a token that is not indented as far, and at the end of the text. -/
theorem reaches_closeBlock (settled : state.Settled) (indented : 0 ≤ state.indent)
    (outside : state.cursor.rest = [] ∨ state.cursor.column < state.indent) :
    Reaches state state.closeBlock := by
  refine ⟨0, by rw [closeBlock_cursor]; omega, fun fuel => ?_⟩
  cases fuel with
  | zero => rfl
  | succ fuel =>
      rw [Nat.add_zero, settled.fresh.run?_eq, settled.closeBlock.fresh.run?_eq, closeBlock_cursor]
      cases shape : state.cursor.rest with
      | nil => simp only [unrollTo_closeBlock settled.noFlow (by omega : (-1 : Int) < state.indent)]
      | cons c rest =>
          have column : state.cursor.column < state.indent :=
            outside.resolve_left (by simp [shape])
          simp only [unrollTo_closeBlock settled.noFlow column]

/-- At the end of a text all tokens are there. -/
theorem run?_end (settled : state.Settled) (ended : state.cursor.rest = [])
    (outermost : state.indent = -1) (fuel : Nat) :
    run? (fuel + 1) state = some state.reversed.reverse := by
  rw [settled.fresh.run?_eq, ended]
  simp [unrollTo_of_le (by omega : state.indent ≤ -1), dropKey?, settled.noKey]

end Steps

end Tokenizer

end ApiAssembly.Yaml
