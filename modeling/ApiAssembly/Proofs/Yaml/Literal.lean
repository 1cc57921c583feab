import ApiAssembly.Proofs.Text.Search
import ApiAssembly.Proofs.Yaml.Gap
import ApiAssembly.Proofs.Yaml.Lines
import ApiAssembly.Yaml.Scalar

/-!
# Reading literal blocks

A literal block is read back line by line.  What its head says about the end of the text and
about the first line's indentation is what the writer had put there.
-/

namespace ApiAssembly.Yaml

section Breaks

variable {indent count : Nat} {breaks rest : List Char} {cursor : Cursor}

theorem length_takeWhile_spaces (count : Nat) (rest : List Char) :
    count ≤ ((spaces count ++ rest).takeWhile (· = ' ')).length := by
  rw [List.takeWhile_append_of_pos fun c member => decide_eq_true (List.eq_of_mem_replicate member),
    List.length_append, spaces, List.length_replicate]
  exact Nat.le_add_right _ _

theorem takeWhile_spaces (noSpace : rest.head? ≠ some ' ') :
    (spaces count ++ rest).takeWhile (· = ' ') = spaces count := by
  have cut := @Text.span_append (· = ' ') (spaces count) rest
    (fun c member => decide_eq_true (List.eq_of_mem_replicate member))
    (fun c member => decide_eq_false fun space => noSpace (space ▸ member))
  rw [List.span_eq_takeWhile_dropWhile] at cut
  exact congrArg Prod.fst cut

theorem column_indentation (start : cursor.column = 0) :
    (cursor.past (spaces count)).column = count := by
  rw [Cursor.past_column isBreak_of_mem_spaces, start, spaces, List.length_replicate, Nat.zero_add]

/-- Where the breaks between the lines of a block end: at a line of the block or outside. -/
def EndsBreaks (indent count : Nat) (rest : List Char) : Prop :=
  (count = indent ∧ ∀ c ∈ rest.head?, isBreak c = false) ∨ (count < indent ∧ EndsGap rest)

/-- The indentation of the next line is gone over, but no blanks of the line itself. -/
theorem readBlockBreaks?_spaces (positive : 0 < indent) (ends : EndsBreaks indent count rest)
    (start : cursor.column = 0) (here : cursor.rest = spaces count ++ rest) (fuel widest : Nat)
    (found : List Char) :
    ∃ wider, readBlockBreaks? indent (fuel + 1) widest found cursor =
      some (wider, found, cursor.past (spaces count)) := by
  have skipped : min (cursor.rest.takeWhile (· = ' ')).length (indent - cursor.column) = count := by
    have least := length_takeWhile_spaces count rest
    rw [here, start]
    rcases ends with ⟨rfl, -⟩ | ⟨outside, endsGap⟩
    · omega
    · rw [takeWhile_spaces (endsGap.head?_ne rfl), spaces, List.length_replicate]
      omega
  have after := Cursor.past_rest here
  have noTab : (decide (count < indent) && decide (rest.head? = some '\t')) = false := by
    rcases ends with ⟨rfl, -⟩ | ⟨outside, endsGap⟩
    · simp
    · simp [endsGap.head?_ne (rfl : isGap '\t' = true)]
  have noBreak : rest.head?.any isBreak = false := by
    have stops : ∀ c ∈ rest.head?, isBreak c = false :=
      ends.elim (fun line => line.2) fun outside => outside.2.noBreak
    cases first : rest.head? with
    | none => rfl
    | some c => exact stops c first
  rw [readBlockBreaks?]
  simp only [Nat.ne_of_gt positive, if_false, skipped, advance_spaces, decide_false, Bool.false_or,
    column_indentation start, Cursor.peek?, after, noTab, Bool.false_eq_true, noBreak]
  exact ⟨_, rfl⟩

/-- The breaks between two lines are read, with the indentation behind them. -/
theorem readBlockBreaks?_breaks (positive : 0 < indent) (ends : EndsBreaks indent count rest)
    (all : ∀ c ∈ breaks, isPlainBreak c = true) (start : cursor.column = 0)
    (here : cursor.rest = breaks ++ (spaces count ++ rest)) {fuel : Nat}
    (enough : breaks.length < fuel) (widest : Nat) (found : List Char) :
    ∃ wider, readBlockBreaks? indent fuel widest found cursor =
      some (wider, found ++ breaks, cursor.past (breaks ++ spaces count)) := by
  induction breaks generalizing cursor fuel widest found with
  | nil =>
      obtain ⟨fuel, rfl⟩ := Nat.exists_eq_add_of_le' enough
      rw [List.append_nil]
      exact readBlockBreaks?_spaces positive ends start here fuel widest found
  | cons c breaks ih =>
      obtain ⟨fuel, rfl⟩ := Nat.exists_eq_add_of_le' (Nat.lt_of_le_of_lt (Nat.zero_le _) enough)
      have first := all c List.mem_cons_self
      have isBreak := Cursor.isBreak_of_isPlainBreak first
      have noBlank : c ≠ ' ' ∧ c ≠ '\t' := by
        simp only [isPlainBreak, Bool.or_eq_true, decide_eq_true_eq] at first
        rcases first with (rfl | rfl) | rfl <;> decide
      have none : cursor.rest.takeWhile (· = ' ') = [] := by
        rw [here, List.cons_append, List.takeWhile_cons_of_neg (by simp [noBlank.1])]
      have next : (cursor.step c).rest = breaks ++ (spaces count ++ rest) := by
        rw [Cursor.step_rest, here]
        rfl
      have startNext : (cursor.step c).column = 0 := by
        rw [Cursor.step_of_isBreak isBreak]
      obtain ⟨wider, later⟩ := ih (fun d member => all d (List.mem_cons_of_mem c member)) startNext
        next (by simpa using enough) (max widest cursor.column) (found ++ [c])
      refine ⟨wider, ?_⟩
      have stay : cursor.advance 0 = cursor := rfl
      rw [readBlockBreaks?]
      simp only [none, List.length_nil, Nat.zero_min, ite_self, stay, Cursor.peek?]
      rw [here, List.cons_append, List.head?_cons, Option.any_some, isBreak, if_pos rfl,
        Cursor.takeBreak_eq first here]
      simp only [Option.some.injEq, noBlank.2, decide_false, Bool.and_false, Bool.false_eq_true,
        if_false, later, List.append_assoc, List.nil_append, List.cons_append,
        Cursor.past_cons]

end Breaks

section Lines

variable {indent count : Nat} {text front back run gap rest : List Char} {cursor : Cursor}
  {ending : LineEnd}

/-- How the end of a text is told in the head of its block. -/
def Chomps : Chomping → List Char → Prop
  | .strip, text => text.getLast?.any isBreak = false
  | .clip, text => text.getLast?.any isBreak = true ∧
      text.dropLast.getLast?.any (fun c => !isBreak c) = true
  | .keep, text => text.getLast?.any isBreak = true

theorem getLast?_append_any {kind : Char → Bool} (inhabited : back ≠ []) :
    (front ++ back).getLast?.any kind = back.getLast?.any kind := by
  rw [List.getLast?_append, List.getLast?_eq_some_getLast inhabited, Option.some_or]

theorem getLast?_any_eq_true {kind : Char → Bool} (inhabited : text ≠ [])
    (all : ∀ c ∈ text, kind c = true) : text.getLast?.any kind = true := by
  rw [List.getLast?_eq_some_getLast inhabited]
  exact all _ (List.getLast_mem inhabited)

theorem getLast?_any_eq_false {kind : Char → Bool} (all : ∀ c ∈ text, kind c = false) :
    text.getLast?.any kind = false := by
  cases last : text.getLast? with
  | none => rfl
  | some c => exact all c (List.mem_of_getLast? last)

/-- The end of a text is that of what stands behind one of its lines' first characters. -/
theorem Chomps.of_append {chomping : Chomping} {c : Char} (line : isBreak c = false)
    (chomps : Chomps chomping (front ++ c :: rest)) : Chomps chomping (c :: rest) := by
  have last := @getLast?_append_any front (c :: rest) isBreak (by simp)
  cases chomping with
  | strip => exact last.symm.trans chomps
  | keep => exact last.symm.trans chomps
  | clip =>
      obtain ⟨ends, before⟩ := chomps
      rw [last] at ends
      refine ⟨ends, ?_⟩
      cases rest with
      | nil => simp [line] at ends
      | cons d rest =>
          rw [List.dropLast_append_of_ne_nil (by simp)] at before
          rwa [getLast?_append_any (by simp)] at before

/-- A text that no break ends is told by the strip mark alone. -/
theorem Chomps.eq_strip {chomping : Chomping} (chomps : Chomps chomping text)
    (noBreak : text.getLast?.any isBreak = false) : chomping = .strip := by
  cases chomping with
  | strip => rfl
  | clip => exact absurd (noBreak.symm.trans chomps.1) Bool.false_ne_true
  | keep => exact absurd (noBreak.symm.trans chomps) Bool.false_ne_true

theorem Chomps.ne_strip {chomping : Chomping} (chomps : Chomps chomping text)
    (last : text.getLast?.any isBreak = true) : chomping ≠ .strip := by
  rintro rfl
  exact absurd (last.symm.trans chomps) Bool.false_ne_true.symm

/-- A text whose last character but one is a break keeps all the breaks at its end. -/
theorem Chomps.eq_keep {chomping : Chomping} (chomps : Chomps chomping text)
    (last : text.getLast?.any isBreak = true)
    (before : text.dropLast.getLast?.any (fun c => !isBreak c) = false) : chomping = .keep := by
  cases chomping with
  | strip => exact absurd rfl (chomps.ne_strip last)
  | clip => exact absurd (before.symm.trans chomps.2) Bool.false_ne_true
  | keep => rfl

/-- The breaks behind the last line are what the head of the block lets through. -/
theorem LineEnd.chomp_eq {chomping : Chomping} {first : Char} {more : List Char}
    {startsBlank : Bool} (breaks : ∀ c ∈ first :: more, isBreak c = true)
    (chomps : Chomps chomping (front ++ (first :: more))) :
    (⟨[first], more, startsBlank⟩ : LineEnd).chomp chomping = first :: more := by
  have last : (front ++ (first :: more)).getLast?.any isBreak = true := by
    rw [getLast?_append_any (by simp)]
    exact getLast?_any_eq_true (by simp) breaks
  cases more with
  | nil =>
      -- a single break is let through whether it is clipped or kept
      cases chomping with
      | strip => exact absurd rfl (chomps.ne_strip last)
      | clip => rfl
      | keep => rfl
  | cons second more =>
      have inner : ∀ c ∈ (first :: second :: more).dropLast, (!isBreak c) = false :=
        fun c member => by simp [breaks c (List.dropLast_subset _ member)]
      obtain rfl := chomps.eq_keep last (by
        rw [List.dropLast_append_of_ne_nil (by simp), getLast?_append_any (by simp),
          getLast?_any_eq_false inner])
      rfl

theorem readBlockLines?_outside (outside : cursor.column ≠ indent) (fuel : Nat) :
    readBlockLines? true indent fuel ending cursor = some ([], ending, cursor) := by
  cases fuel with
  | zero => rfl
  | succ fuel => rw [readBlockLines?]; simp [outside]

/-- A line of a block, with the breaks behind it and the indentation of the next line. -/
theorem readBlockLines?_line (positive : 0 < indent)
    (line : ∀ c ∈ run, isBreak c = false) {first : Char} {more : List Char}
    (breaks : ∀ c ∈ first :: more, isPlainBreak c = true) (ends : EndsBreaks indent count rest)
    (inside : cursor.column = indent)
    (here : cursor.rest = run ++ (first :: more ++ (spaces count ++ rest))) {fuel : Nat}
    (enough : more.length < fuel) :
    ∃ startsBlank, readBlockLines? true indent (fuel + 1) ending cursor =
      (readBlockLines? true indent fuel ⟨[first], more, startsBlank⟩
        (cursor.past (run ++ (first :: more ++ spaces count)))).map fun (text, last, cursor) =>
          (ending.lineBreak ++ ending.blankLines ++ run ++ text, last, cursor) := by
  have after := Cursor.past_rest here
  have notEnd : cursor.rest ≠ [] := by
    rw [here]
    simp
  have taken : cursor.rest.takeWhile (fun c => !isBreak c) = run := by
    have stops := Cursor.isBreak_of_isPlainBreak (breaks first List.mem_cons_self)
    have cut := @Text.span_append (fun c => !isBreak c) run
      (first :: more ++ (spaces count ++ rest)) (fun c member => by simp [line c member])
      (fun c member => by cases member; simp [stops])
    rw [List.span_eq_takeWhile_dropWhile, ← here] at cut
    exact congrArg Prod.fst cut
  have next : ((cursor.past run).step first).rest = more ++ (spaces count ++ rest) := by
    rw [Cursor.step_rest, after]
    rfl
  have start : ((cursor.past run).step first).column = 0 := by
    rw [Cursor.step_of_isBreak (Cursor.isBreak_of_isPlainBreak (breaks first List.mem_cons_self))]
  obtain ⟨wider, breaksRead⟩ := readBlockBreaks?_breaks positive ends
    (fun c member => breaks c (List.mem_cons_of_mem first member)) start next enough 0 []
  have written : ((cursor.past run).step first).past (more ++ spaces count) =
      cursor.past (run ++ (first :: more ++ spaces count)) := by
    rw [Cursor.past_append, Cursor.past_append, Cursor.past_append, Cursor.past_cons]
  refine ⟨cursor.rest.head?.any isBlank, ?_⟩
  rw [readBlockLines?]
  simp only [inside, notEnd, taken, Cursor.advance_length cursor line,
    Cursor.takeBreak_eq (breaks first List.mem_cons_self) after, breaksRead, written,
    Option.bind_eq_bind, Option.bind_some, List.nil_append, ne_eq, not_true_eq_false,
    decide_false, Bool.or_self, Bool.false_eq_true, if_false]
  cases readBlockLines? true indent fuel ⟨[first], more, cursor.rest.head?.any isBlank⟩
    (cursor.past (run ++ (first :: more ++ spaces count))) with
  | none => rfl
  | some found => simp [LineEnd.fold]

/-- The last line of a block, with the breaks behind it. -/
theorem readBlockLines?_last (line : ∀ c ∈ run, isBreak c = false) {first : Char}
    {more : List Char} (breaks : ∀ c ∈ first :: more, isPlainBreak c = true)
    (outside : count < indent) (ends : EndsGap rest) (inside : cursor.column = indent)
    (here : cursor.rest = run ++ (first :: more ++ (spaces count ++ rest))) {fuel : Nat}
    (enough : more.length < fuel) :
    ∃ startsBlank, readBlockLines? true indent (fuel + 1) ending cursor =
      some (ending.lineBreak ++ ending.blankLines ++ run, ⟨[first], more, startsBlank⟩,
        cursor.past (run ++ (first :: more ++ spaces count))) := by
  obtain ⟨startsBlank, step⟩ := @readBlockLines?_line indent count run rest cursor ending
    (Nat.lt_of_le_of_lt (Nat.zero_le _) outside) line first more breaks (.inr ⟨outside, ends⟩)
    inside here fuel enough
  have column : (cursor.past (run ++ (first :: more ++ spaces count))).column ≠ indent := by
    rw [Cursor.past_append, Cursor.column_behind_breaks (by simp)
      (fun c member => Cursor.isBreak_of_isPlainBreak (breaks c member)) isBreak_of_mem_spaces,
      spaces, List.length_replicate]
    omega
  refine ⟨startsBlank, ?_⟩
  rw [step, readBlockLines?_outside column]
  simp

/-- The lines of a block from the first of them on, as they are written. -/
def blockLines (indent : Nat) (text : List Char) : List Char :=
  closeLine (indentLines indent false text)

theorem blockLines_of_line (line : ∀ c ∈ run, isBreak c = false) :
    blockLines indent run = run ++ ['\n'] := by
  have lines := @indentLines_of_line run [] indent line
  rw [List.append_nil, indentLines, List.append_nil] at lines
  rw [blockLines, lines, closeLine_of_noBreak line]

theorem blockLines_of_breaks (line : ∀ c ∈ run, isBreak c = false) (inhabited : gap ≠ [])
    (breaks : ∀ c ∈ gap, isBreak c = true) : blockLines indent (run ++ gap) = run ++ gap := by
  have lines := @indentLines_of_breaks gap [] indent false inhabited breaks
  rw [List.append_nil, indentLines, List.append_nil] at lines
  rw [blockLines, indentLines_of_line line, lines, closeLine_append inhabited,
    closeLine_of_breaks inhabited breaks]

theorem blockLines_append (line : ∀ c ∈ run, isBreak c = false) (inhabited : gap ≠ [])
    (breaks : ∀ c ∈ gap, isBreak c = true) {c : Char} (first : isBreak c = false) :
    blockLines indent (run ++ (gap ++ c :: rest)) =
      run ++ (gap ++ (spaces indent ++ blockLines indent (c :: rest))) := by
  have more : indentLines indent false (c :: rest) ≠ [] := by
    simp [indentLines, first]
  rw [blockLines, indentLines_of_line line, indentLines_of_breaks inhabited breaks,
    indentLines_behindBreak first, closeLine_append (by simp [inhabited]),
    closeLine_append (by simp [more]), closeLine_append more]
  rfl

theorem head?_blockLines {c : Char} (first : isBreak c = false) :
    (blockLines indent (c :: rest)).head? = some c := by
  rw [blockLines, closeLine, indentLines, first, if_neg Bool.false_ne_true,
    if_neg Bool.false_ne_true, List.nil_append]
  split <;> rfl

theorem endsBreaks_blockLines {c : Char} (first : isBreak c = false) (behind : List Char) :
    EndsBreaks indent indent (blockLines indent (c :: rest) ++ behind) := by
  refine .inl ⟨rfl, ?_⟩
  intro d member
  rw [List.head?_append, head?_blockLines first, Option.some_or] at member
  cases member
  exact first

/-- The lines of a block are read up to a line outside of it. -/
theorem readBlockLines?_text (outside : count < indent) (ends : EndsGap rest) (text : List Char) :
    ∀ {cursor : Cursor} {fuel : Nat} {ending : LineEnd}, text ≠ [] →
      (∀ c ∈ text.head?, isBreak c = false) →
      (∀ c ∈ text, isBreak c = true → isPlainBreak c = true) → cursor.column = indent →
      cursor.rest = blockLines indent text ++ (spaces count ++ rest) →
      (blockLines indent text).length ≤ fuel →
      ∃ read last, readBlockLines? true indent fuel ending cursor =
          some (ending.lineBreak ++ ending.blankLines ++ read, last,
            cursor.past (blockLines indent text ++ spaces count)) ∧
        ∀ chomping, Chomps chomping text → read ++ last.chomp chomping = text := by
  induction text using induction_gaps isBreak with
  | last run line =>
      intro cursor fuel ending inhabited _ _ inside here enough
      have positive := List.length_pos_iff.mpr inhabited
      rw [blockLines_of_line line] at here enough ⊢
      rw [List.length_append, List.length_singleton] at enough
      obtain ⟨fuel, rfl⟩ : ∃ less, fuel = less + 1 := ⟨fuel - 1, by omega⟩
      obtain ⟨startsBlank, step⟩ := @readBlockLines?_last indent count run rest cursor ending line
        '\n' [] (List.forall_mem_singleton.mpr rfl) outside ends inside (by simpa using here) fuel
        (by simp; omega)
      refine ⟨run, _, by simpa using step, ?_⟩
      intro chomping chomps
      obtain rfl := chomps.eq_strip (getLast?_any_eq_false line)
      exact List.append_nil run
  | more run gap rest' line inhabited breaks restEnds ih =>
      intro cursor fuel ending _ firstLine plain inside here enough
      obtain ⟨first, more, rfl⟩ := List.exists_cons_of_ne_nil inhabited
      have plainBreaks : ∀ c ∈ first :: more, isPlainBreak c = true := fun c member =>
        plain c (List.mem_append_right _ (List.mem_append_left _ member)) (breaks c member)
      have runInhabited : run ≠ [] := by
        rintro rfl
        have isBreak := breaks first List.mem_cons_self
        rw [firstLine first rfl] at isBreak
        cases isBreak
      have positive := List.length_pos_iff.mpr runInhabited
      cases rest' with
      | nil =>
          rw [List.append_nil, blockLines_of_breaks line inhabited breaks] at here enough ⊢
          rw [List.length_append, List.length_cons] at enough
          obtain ⟨fuel, rfl⟩ : ∃ less, fuel = less + 1 := ⟨fuel - 1, by omega⟩
          obtain ⟨startsBlank, step⟩ := @readBlockLines?_last indent count run rest cursor ending
            line first more plainBreaks outside ends inside (by simpa using here) fuel (by omega)
          refine ⟨run, _, by simpa using step, ?_⟩
          intro chomping chomps
          rw [LineEnd.chomp_eq breaks chomps]
      | cons c rest' =>
          have firstRest := restEnds c rfl
          rw [blockLines_append line inhabited breaks firstRest] at here enough ⊢
          simp only [List.length_append, List.length_cons, spaces, List.length_replicate] at enough
          obtain ⟨fuel, rfl⟩ : ∃ less, fuel = less + 1 := ⟨fuel - 1, by omega⟩
          obtain ⟨startsBlank, step⟩ := @readBlockLines?_line indent indent run _ cursor ending
            (Nat.lt_of_le_of_lt (Nat.zero_le _) outside) line first more plainBreaks
            (endsBreaks_blockLines firstRest _) inside (by simpa using here) fuel (by omega)
          have column :
              (cursor.past (run ++ (first :: more ++ spaces indent))).column = indent := by
            rw [Cursor.past_append, Cursor.column_behind_breaks (by simp) breaks
              isBreak_of_mem_spaces, spaces, List.length_replicate]
          have after : (cursor.past (run ++ (first :: more ++ spaces indent))).rest =
              blockLines indent (c :: rest') ++ (spaces count ++ rest) :=
            Cursor.past_rest (by simpa using here)
          obtain ⟨read, last, later, chomped⟩ := @ih _ fuel ⟨[first], more, startsBlank⟩ (by simp)
            restEnds (fun d member => plain d (by simp [member])) column after (by omega)
          refine ⟨run ++ (first :: more ++ read), last, ?_, ?_⟩
          · rw [step, later]
            simp [Cursor.past_append]
          · intro chomping chomps
            rw [← List.append_assoc] at chomps
            have suffix := chomped chomping (chomps.of_append firstRest)
            rw [List.append_assoc, List.append_assoc, suffix]

end Lines

section Blocks

variable {indent count parent : Nat} {text rest : List Char} {cursor : Cursor}

/-- The mark of a chomping in the head of a block. -/
def markOf : Chomping → List Char
  | .strip => ['-']
  | .clip => []
  | .keep => ['+']

/-- The head of a written block tells how its text ends. -/
theorem exists_chomping (inhabited : text ≠ []) :
    ∃ chomping, chompingMark text = markOf chomping ∧ Chomps chomping text := by
  have turned := List.reverse_reverse text
  rw [chompingMark.eq_def]
  split
  next empty =>
    rw [empty] at turned
    exact absurd turned.symm inhabited
  next last single =>
    rw [single] at turned
    subst turned
    cases isBreak : isBreak last with
    | true => exact ⟨.keep, rfl, by simp [Chomps, isBreak]⟩
    | false => exact ⟨.strip, rfl, by simp [Chomps, isBreak]⟩
  next last previous front several =>
    rw [several] at turned
    subst turned
    cases lastBreak : isBreak last with
    | false => exact ⟨.strip, rfl, by simp [Chomps, lastBreak]⟩
    | true =>
        cases previousBreak : isBreak previous with
        | true => exact ⟨.keep, rfl, by simp [Chomps, lastBreak]⟩
        | false => exact ⟨.clip, rfl, by simp [Chomps, lastBreak, previousBreak]⟩

/-- Whether the head of a written block gives an indentation. -/
def isMarked (text : List Char) : Bool :=
  text.head?.any fun c => c = ' ' || isBreak c

theorem indentationMark_eq (text : List Char) :
    indentationMark text = if isMarked text then ['2'] else [] := rfl

theorem readBlockHead?_marks (chomping : Chomping) (marked : Bool)
    (here : cursor.rest = ((if marked then ['2'] else []) ++ markOf chomping) ++ '\n' :: rest) :
    readBlockHead? cursor =
      some (chomping, (if marked then some 2 else none),
        cursor.past ((if marked then ['2'] else []) ++ markOf chomping)) := by
  rw [← Cursor.advance_length cursor (by cases marked <;> cases chomping <;> decide),
    readBlockHead?, here]
  cases marked <;> cases chomping <;> rfl

theorem finishLine?_lineFeed (here : cursor.rest = '\n' :: rest) :
    cursor.finishLine? = some (cursor.step '\n') := by
  have stay : cursor.advanceWhile isBlank = cursor := by
    rw [Cursor.advanceWhile, here]
    rfl
  rw [Cursor.finishLine?, stay, Cursor.skipComment, Cursor.peek?, here]
  simp [Cursor.atLineEnd, here, isBreak, Cursor.takeBreak_eq rfl here]

/-- The first line of a block shows an indentation that the head does not give. -/
theorem readBlockBreaks?_first {c : Char} (noGap : c ≠ ' ' ∧ c ≠ '\t' ∧ isBreak c = false)
    (start : cursor.column = 0) (here : cursor.rest = spaces indent ++ c :: rest) (fuel : Nat) :
    readBlockBreaks? 0 (fuel + 1) 0 [] cursor =
      some (indent, [], cursor.past (spaces indent)) := by
  have after := Cursor.past_rest here
  have skipped : cursor.rest.takeWhile (· = ' ') = spaces indent := by
    rw [here, takeWhile_spaces (by simp [noGap.1])]
  have length : (spaces indent).length = indent := List.length_replicate
  rw [readBlockBreaks?]
  simp [skipped, length, advance_spaces, column_indentation start, Cursor.peek?, after, noGap]

/-- A text that a literal block can hold. -/
structure FitsLiteral (text : List Char) : Prop where
  inhabited : text ≠ []
  breaks : ∀ c ∈ text, isBreak c = true → isPlainBreak c = true
  noTab : '\t' ∉ text

/-- The breaks in front of the first line, and the lines. -/
theorem closeLine_indentLines {leading : List Char} {c : Char}
    (breaks : ∀ d ∈ leading, isBreak d = true) (line : isBreak c = false) :
    closeLine (indentLines indent true (leading ++ c :: rest)) =
      leading ++ (spaces indent ++ blockLines indent (c :: rest)) := by
  have inhabited : indentLines indent false (c :: rest) ≠ [] := by
    simp [indentLines, line]
  have split : indentLines indent true (leading ++ c :: rest) =
      leading ++ (spaces indent ++ indentLines indent false (c :: rest)) := by
    cases leading with
    | nil => exact indentLines_behindBreak line
    | cons d leading => rw [indentLines_of_breaks (by simp) breaks, indentLines_behindBreak line]
  rw [split, closeLine_append (by simp [inhabited]), closeLine_append inhabited, blockLines]

theorem closeLine_indentLines_of_breaks (inhabited : text ≠ [])
    (breaks : ∀ c ∈ text, isBreak c = true) : closeLine (indentLines indent true text) = text := by
  have lines := @indentLines_of_breaks text [] indent true inhabited breaks
  rw [List.append_nil, indentLines, List.append_nil] at lines
  rw [lines, closeLine_of_breaks inhabited breaks]

/-- What the reader finds in front of the lines of a block: the breaks, up to the indentation of
its first line or to what follows a block of breaks. -/
theorem readBlockBreaks?_start {leading : List Char}
    (positive : 0 < indent) (ends : EndsBreaks indent count rest) (start : cursor.column = 0)
    (here : cursor.rest = leading ++ (spaces count ++ rest)) {fuel : Nat}
    (enough : leading.length < fuel) (breaks : ∀ c ∈ leading, isPlainBreak c = true)
    (first : isMarked text = false → leading = [] ∧ count = indent ∧
      ∃ c more, rest = c :: more ∧ c ≠ ' ' ∧ c ≠ '\t' ∧ isBreak c = false) :
    ∃ widest, readBlockBreaks? (if isMarked text then indent else 0) fuel 0 [] cursor =
      some (widest, leading, cursor.past (leading ++ spaces count)) ∧
        (isMarked text = false → widest = indent) := by
  cases marked : isMarked text with
  | true =>
      obtain ⟨widest, read⟩ := readBlockBreaks?_breaks positive ends breaks start here enough 0 []
      exact ⟨widest, read, by simp⟩
  | false =>
      obtain ⟨rfl, rfl, c, more, rfl, noGap⟩ := first marked
      obtain ⟨fuel, rfl⟩ := Nat.exists_eq_add_of_le' enough
      exact ⟨count, readBlockBreaks?_first noGap start here fuel, fun _ => rfl⟩

/-- What is found behind the head of a block: its breaks, its lines and their end. -/
def ReadsBlock (parent fuel : Nat) (chomping : Chomping) (text : List Char)
    (start after : Cursor) : Prop :=
  ∃ widest blankLines place read last,
    readBlockBreaks? (if isMarked text then parent + 2 else 0) fuel 0 [] start =
        some (widest, blankLines, place) ∧
      (isMarked text = false → widest = parent + 2) ∧
      readBlockLines? true (parent + 2) fuel { blankLines } place = some (read, last, after) ∧
      read ++ last.chomp chomping = text

/-- A block of breaks alone. -/
theorem readsBlock_of_breaks {fuel : Nat} {chomping : Chomping} (inhabited : text ≠ [])
    (breaks : ∀ c ∈ text, isPlainBreak c = true) (outside : count ≤ parent)
    (ends : EndsGap rest) (start : cursor.column = 0)
    (here : cursor.rest = text ++ (spaces count ++ rest)) (enough : text.length < fuel)
    (chomps : Chomps chomping text) :
    ReadsBlock parent fuel chomping text cursor (cursor.past (text ++ spaces count)) := by
  have isBreak : ∀ c ∈ text, isBreak c = true :=
    fun c member => Cursor.isBreak_of_isPlainBreak (breaks c member)
  have marked : isMarked text = true := by
    obtain ⟨c, more, rfl⟩ := List.exists_cons_of_ne_nil inhabited
    simp [isMarked, isBreak c List.mem_cons_self]
  have beyond : EndsBreaks (parent + 2) count rest := .inr ⟨by omega, ends⟩
  obtain ⟨widest, breaksRead, wide⟩ := @readBlockBreaks?_start (parent + 2) count text rest cursor
    text (by omega) beyond start here fuel enough breaks (by simp [marked])
  have column : (cursor.past (text ++ spaces count)).column ≠ parent + 2 := by
    rw [Cursor.column_behind_breaks inhabited isBreak isBreak_of_mem_spaces, spaces,
      List.length_replicate]
    omega
  have before : text.dropLast.getLast?.any (fun c => !Yaml.isBreak c) = false := by
    refine getLast?_any_eq_false fun c member => ?_
    simp [isBreak c (List.dropLast_subset _ member)]
  obtain rfl := chomps.eq_keep (getLast?_any_eq_true inhabited isBreak) before
  exact ⟨widest, text, _, [], { blankLines := text }, breaksRead, wide,
    readBlockLines?_outside column fuel, rfl⟩

/-- A block with a line, perhaps behind breaks. -/
theorem readsBlock_of_lines {leading : List Char} {c : Char} {fuel : Nat} {chomping : Chomping}
    (fits : FitsLiteral (leading ++ c :: text)) (breaks : ∀ d ∈ leading, isBreak d = true)
    (line : isBreak c = false) (outside : count ≤ parent) (ends : EndsGap rest)
    (start : cursor.column = 0)
    (here : cursor.rest = leading ++ (spaces (parent + 2) ++
      (blockLines (parent + 2) (c :: text) ++ (spaces count ++ rest))))
    (enough : leading.length + (blockLines (parent + 2) (c :: text)).length < fuel)
    (chomps : Chomps chomping (leading ++ c :: text)) :
    ReadsBlock parent fuel chomping (leading ++ c :: text) cursor
      (cursor.past (leading ++ (spaces (parent + 2) ++
        (blockLines (parent + 2) (c :: text) ++ spaces count)))) := by
  have plainBreaks : ∀ d ∈ leading, isPlainBreak d = true :=
    fun d member => fits.breaks d (List.mem_append_left _ member) (breaks d member)
  have first := @head?_blockLines (parent + 2) text c line
  have unmarked : isMarked (leading ++ c :: text) = false → leading = [] ∧ parent + 2 = parent + 2 ∧
      ∃ d more, blockLines (parent + 2) (c :: text) ++ (spaces count ++ rest) = d :: more ∧
        d ≠ ' ' ∧ d ≠ '\t' ∧ isBreak d = false := by
    intro unmarked
    cases leading with
    | cons d leading => simp [isMarked, breaks d List.mem_cons_self] at unmarked
    | nil =>
        have noSpace : c ≠ ' ' := by
          rintro rfl
          simp [isMarked] at unmarked
        have noTab : c ≠ '\t' := by
          rintro rfl
          exact fits.noTab List.mem_cons_self
        obtain ⟨more, shape⟩ := List.head?_eq_some_iff.mp first
        exact ⟨rfl, rfl, c, _, by rw [shape]; rfl, noSpace, noTab, line⟩
  obtain ⟨widest, breaksRead, wide⟩ := @readBlockBreaks?_start (parent + 2) (parent + 2)
    (leading ++ c :: text) _ cursor leading (by omega) (endsBreaks_blockLines line _) start here
    fuel (by omega) plainBreaks unmarked
  have column : (cursor.past (leading ++ spaces (parent + 2))).column = parent + 2 := by
    cases leading with
    | nil => exact column_indentation start
    | cons d leading =>
        rw [Cursor.column_behind_breaks (by simp) breaks isBreak_of_mem_spaces, spaces,
          List.length_replicate]
  have after : (cursor.past (leading ++ spaces (parent + 2))).rest =
      blockLines (parent + 2) (c :: text) ++ (spaces count ++ rest) :=
    Cursor.past_rest (by simpa using here)
  obtain ⟨read, last, linesRead, chomped⟩ := @readBlockLines?_text (parent + 2) count rest
    (by omega) ends (c :: text) _ fuel { blankLines := leading } (by simp) (by simpa using line)
    (fun d member => fits.breaks d (List.mem_append_right _ member)) column after (by omega)
  refine ⟨widest, leading, _, leading ++ read, last, breaksRead, wide, ?_, ?_⟩
  · rw [linesRead]
    simp [Cursor.past_append]
  · rw [List.append_assoc, chomped chomping (chomps.of_append line)]

/-- The lines of a written block are read, whether it begins with breaks or consists of them. -/
theorem FitsLiteral.readsBlock {chomping : Chomping} {fuel : Nat} (fits : FitsLiteral text)
    (outside : count ≤ parent) (ends : EndsGap rest) (start : cursor.column = 0)
    (here : cursor.rest =
      closeLine (indentLines (parent + 2) true text) ++ (spaces count ++ rest))
    (enough : (closeLine (indentLines (parent + 2) true text)).length < fuel)
    (chomps : Chomps chomping text) :
    ReadsBlock parent fuel chomping text cursor
      (cursor.past (closeLine (indentLines (parent + 2) true text) ++ spaces count)) := by
  have whole := List.takeWhile_append_dropWhile (p := isBreak) (l := text)
  have leadingBreaks : ∀ c ∈ text.takeWhile isBreak, isBreak c = true :=
    fun c member => List.mem_takeWhile_imp member
  have stops := @head?_dropWhile isBreak text
  generalize text.takeWhile isBreak = leading at whole leadingBreaks
  generalize text.dropWhile isBreak = behind at whole stops
  subst whole
  cases behind with
  | nil =>
      rw [List.append_nil] at fits chomps here enough ⊢
      have written := @closeLine_indentLines_of_breaks (parent + 2) leading fits.inhabited
        leadingBreaks
      rw [written] at here enough ⊢
      exact readsBlock_of_breaks fits.inhabited
        (fun c member => fits.breaks c member (leadingBreaks c member)) outside ends start here
        enough chomps
  | cons c behind =>
      have firstLine := stops c rfl
      rw [closeLine_indentLines leadingBreaks firstLine] at here enough ⊢
      have long : leading.length + (blockLines (parent + 2) (c :: behind)).length < fuel := by
        rw [List.length_append, List.length_append] at enough
        omega
      have read := readsBlock_of_lines fits leadingBreaks firstLine outside ends start
        (by simpa using here) long chomps
      simpa using read

/-- A written literal block is read back, up to the first line outside of it. -/
theorem FitsLiteral.readBlock?_eq (fits : FitsLiteral text) (outside : count ≤ parent)
    (ends : EndsGap rest)
    (here : cursor.rest = (indentationMark text ++ chompingMark text) ++
      '\n' :: (closeLine (indentLines (parent + 2) true text) ++ (spaces count ++ rest)))
    {fuel : Nat} (enough : (closeLine (indentLines (parent + 2) true text)).length < fuel) :
    readBlock? fuel true parent cursor = some (text, cursor.past
      ((indentationMark text ++ chompingMark text) ++
        '\n' :: (closeLine (indentLines (parent + 2) true text) ++ spaces count))) := by
  obtain ⟨chomping, mark, chomps⟩ := exists_chomping fits.inhabited
  rw [indentationMark_eq, mark] at here ⊢
  have head := readBlockHead?_marks chomping (isMarked text) here
  generalize (if isMarked text then ['2'] else []) ++ markOf chomping = marks at here head ⊢
  have afterHead := Cursor.past_rest here
  have line := finishLine?_lineFeed afterHead
  have afterLine : ((cursor.past marks).step '\n').rest =
      closeLine (indentLines (parent + 2) true text) ++ (spaces count ++ rest) := by
    rw [Cursor.step_rest, afterHead]
    rfl
  obtain ⟨widest, blankLines, place, read, last, breaksRead, wide, linesRead, whole⟩ :=
    fits.readsBlock outside ends rfl afterLine enough chomps
  rw [readBlock?]
  cases marked : isMarked text with
  | true =>
      rw [marked, if_pos rfl] at breaksRead head
      simp [head, line, breaksRead, linesRead, whole, Cursor.past_append]
  | false =>
      obtain rfl := wide marked
      rw [marked, if_neg Bool.false_ne_true] at breaksRead head
      simp [head, line, breaksRead, linesRead, whole, Cursor.past_append]

end Blocks

end ApiAssembly.Yaml
