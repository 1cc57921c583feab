import ApiAssembly.Proofs.Yaml.Gap
import ApiAssembly.Proofs.Yaml.Plain
import ApiAssembly.Yaml.Scalar

/-!
# Reading plain text

A text that fits on one line without quotes is read up to the colon of a key or to the end
of its line, whatever follows.
-/

namespace ApiAssembly.Yaml

section Indicators

variable {text front back run tail : List Char} {behindGap : Bool}

/-- A text that is written without quotes. -/
structure IsPlainText (text : List Char) : Prop where
  inhabited : text ≠ []
  printable : ∀ c ∈ text, isPrintable c = true
  fits : fitsPlain text = true

theorem IsPlainText.noStart (plain : IsPlainText text) : startsWithIndicator text = false := by
  have fits := plain.fits
  simp only [fitsPlain, Bool.and_eq_true, Bool.not_eq_true'] at fits
  exact fits.1.1.1.1

theorem IsPlainText.noIndicator (plain : IsPlainText text) : holdsIndicator true text = false := by
  have fits := plain.fits
  simp only [fitsPlain, Bool.and_eq_true, Bool.not_eq_true'] at fits
  exact fits.1.1.1.2

theorem IsPlainText.noBreak (plain : IsPlainText text) : ∀ c ∈ text, isBreak c = false := by
  have fits := plain.fits
  simp only [fitsPlain, Bool.and_eq_true, Bool.not_eq_true'] at fits
  simpa using fits.1.1.2

theorem IsPlainText.head?_ne (plain : IsPlainText text) : text.head? ≠ some ' ' := by
  have fits := plain.fits
  simp only [fitsPlain, Bool.and_eq_true, decide_eq_true_eq] at fits
  exact fits.1.2

theorem IsPlainText.getLast?_ne (plain : IsPlainText text) : text.getLast? ≠ some ' ' := by
  have fits := plain.fits
  simp only [fitsPlain, Bool.and_eq_true, decide_eq_true_eq] at fits
  exact fits.2

theorem holdsIndicator_of_append
    (absent : holdsIndicator behindGap (front ++ ' ' :: back) = false) :
    holdsIndicator true back = false := by
  induction front generalizing behindGap with
  | nil =>
      rw [List.nil_append, holdsIndicator, Bool.or_eq_false_iff] at absent
      exact absent.2
  | cons c front ih =>
      rw [List.cons_append, holdsIndicator, Bool.or_eq_false_iff] at absent
      exact ih absent.2

/-- What stands directly behind a plain text: the colon of a key, or the end of a line and a
line that is not indented as far.  The indices tell whether the text ends with its line, and
what is read over behind it. -/
inductive PlainEnd (indent : Int) : List Char → Bool → List Char → Prop
  | colon {rest : List Char} (gap : gapFollows rest = true) : PlainEnd indent (':' :: rest) false []
  | line {count : Nat} {rest : List Char} (ends : EndsGap rest) (outside : count < indent) :
      PlainEnd indent ('\n' :: (spaces count ++ rest)) true ('\n' :: spaces count)

/-- A run of a plain text is read up to the gap or the end behind it. -/
theorem plainRun?_append (absent : holdsIndicator behindGap (run ++ back) = false)
    (gap : gapFollows back = true) (noGap : ∀ c ∈ run, isGap c = false)
    (stops : plainRun? false tail = some ([], tail)) :
    plainRun? false (run ++ tail) = some (run, tail) := by
  induction run generalizing behindGap with
  | nil => exact stops
  | cons c run ih =>
      rw [List.cons_append, holdsIndicator, Bool.or_eq_false_iff, Bool.or_eq_false_iff] at absent
      have inside : (decide (c = ':') && gapFollows (run ++ tail)) = false := by
        by_cases colon : c = ':'
        · cases run with
          | nil => simp [colon, gap] at absent
          | cons d run => simpa [gapFollows] using fun _ => noGap d (by simp)
        · simp [colon]
      have later := ih absent.2 fun d member => noGap d (List.mem_cons_of_mem c member)
      rw [List.cons_append, plainRun?]
      simp [noGap c List.mem_cons_self, inside, later]

theorem PlainEnd.plainRun?_eq {indent : Int} {broken : Bool} {crossed : List Char}
    (ends : PlainEnd indent tail broken crossed) : plainRun? false tail = some ([], tail) := by
  cases ends with
  | colon gap => simp [plainRun?, gap, isGap, isBlank, isBreak]
  | line => rfl

end Indicators

section Reading

variable {indent : Int} {text tail crossed : List Char} {broken : Bool} {cursor : Cursor}

/-- The only gaps of a plain text are spaces. -/
theorem eq_space_of_isPrintable {c : Char} (printable : isPrintable c = true)
    (line : isBreak c = false) (gap : isGap c = true) : c = ' ' := by
  rw [isGap, line, Bool.or_false, isBlank, Bool.or_eq_true, decide_eq_true_eq,
    decide_eq_true_eq] at gap
  rcases gap with rfl | rfl
  · rfl
  · exact absurd printable (by decide)

theorem isBreak_of_isGap {run : List Char} (noGap : ∀ c ∈ run, isGap c = false) :
    ∀ c ∈ run, isBreak c = false := by
  intro c member
  have none := noGap c member
  rw [isGap, Bool.or_eq_false_iff] at none
  exact none.2

theorem past_spaces_column {run : List Char} (line : ∀ c ∈ run, isBreak c = false) (count : Nat) :
    (cursor.past (run ++ spaces count)).column = cursor.column + run.length + count := by
  rw [Cursor.past_append, Cursor.past_column isBreak_of_mem_spaces, Cursor.past_column line, spaces,
    List.length_replicate]

theorem peek?_ne_of_holdsIndicator (absent : holdsIndicator true text = false)
    (inhabited : text ≠ []) (here : cursor.rest = text ++ tail) : cursor.peek? ≠ some '#' := by
  obtain ⟨c, rest, rfl⟩ := List.exists_cons_of_ne_nil inhabited
  rw [Cursor.peek?, here]
  rintro ⟨rfl⟩
  simp [holdsIndicator] at absent

/-- The last run of a plain text is read together with what ends the text. -/
theorem readPlain?_run {run : List Char} (ends : PlainEnd indent tail broken crossed)
    (inhabited : run ≠ []) (noGap : ∀ c ∈ run, isGap c = false)
    (absent : holdsIndicator true run = false) {fuel : Nat} (enough : crossed.length ≤ fuel)
    {gap : Gap} (noMark : cursor.atDocumentMark = false) (here : cursor.rest = run ++ tail) :
    readPlain? false indent (fuel + 1) gap cursor =
      some (gap.fold ++ run, broken, cursor.past (run ++ crossed)) := by
  have noComment := peek?_ne_of_holdsIndicator absent inhabited here
  have line := isBreak_of_isGap noGap
  have read := plainRun?_append ((List.append_nil run).symm ▸ absent) rfl noGap ends.plainRun?_eq
  have after := Cursor.past_rest here
  rw [readPlain?, here, read]
  simp only [noMark, noComment, Bool.false_or, decide_false, Bool.false_eq_true, if_false,
    Option.bind_eq_bind, Option.bind_some, inhabited, Cursor.advance_length cursor line]
  cases ends with
  | colon =>
      rw [List.append_nil]
      rfl
  | @line count rest endsGap outside =>
      obtain ⟨more, rfl⟩ := Nat.exists_eq_add_of_le enough
      have behind : ((cursor.past run).step '\n').rest = spaces count ++ rest := by
        rw [Cursor.step_rest, after]
        rfl
      have fuels : ('\n' :: spaces count).length + more = more + count + 1 := by
        rw [List.length_cons, spaces, List.length_replicate]
        omega
      have column : (((cursor.past run).step '\n').past (spaces count)).column = count := by
        rw [Cursor.past_column isBreak_of_mem_spaces, spaces, List.length_replicate]
        exact Nat.zero_add count
      have gapRead : Gap.read? (some indent) (more + count + 1) {} (cursor.past run) =
          some ({ broken := true, first := ['\n'] },
            ((cursor.past run).step '\n').past (spaces count)) := by
        rw [Gap.read?_break rfl _ rfl after, Gap.read?_indentation rfl count more behind]
        exact Gap.read?_of_endsGap (by rwa [Cursor.past_rest behind]) more
      rw [fuels, gapRead]
      simp [gapFollows, isGap, isBlank, isBreak, column, outside, Cursor.past_append]

/-- A run of a plain text with spaces and more text behind it. -/
theorem readPlain?_spaces {run more : List Char} {count : Nat} (inhabited : run ≠ [])
    (noGap : ∀ c ∈ run, isGap c = false)
    (absent : holdsIndicator true (run ++ (spaces (count + 1) ++ more)) = false)
    (endsGap : EndsGap (more ++ tail)) {fuel : Nat} (enough : count + 1 ≤ fuel) {gap : Gap}
    (noMark : cursor.atDocumentMark = false)
    (here : cursor.rest = run ++ (spaces (count + 1) ++ (more ++ tail)))
    (indented : indent ≤ cursor.column + 2) :
    readPlain? false indent (fuel + 1) gap cursor =
      (readPlain? false indent fuel { blanks := spaces (count + 1) }
        (cursor.past (run ++ spaces (count + 1)))).map fun (text, broken, cursor) =>
          (gap.fold ++ run ++ text, broken, cursor) := by
  have noComment : cursor.peek? ≠ some '#' :=
    @peek?_ne_of_holdsIndicator _ tail _ absent (by simp [inhabited]) (by simp [here])
  have line := isBreak_of_isGap noGap
  have read := plainRun?_append absent rfl noGap
    (rfl : plainRun? false (spaces (count + 1) ++ (more ++ tail)) = _)
  obtain ⟨left, rfl⟩ := Nat.exists_eq_add_of_le enough
  have gapRead : Gap.read? (some indent) (count + 1 + left) {} (cursor.past run) =
      some ({ blanks := spaces (count + 1) }, cursor.past (run ++ spaces (count + 1))) := by
    have after := Cursor.past_rest here
    rw [Nat.add_comm, Gap.read?_spaces rfl (count + 1) left after, Cursor.past_append]
    exact Gap.read?_of_endsGap (by rwa [Cursor.past_rest after]) left
  have column := @past_spaces_column cursor run line (count + 1)
  have positive := List.length_pos_iff.mpr inhabited
  have inside : ¬(cursor.past (run ++ spaces (count + 1))).column < indent := by omega
  have follows : gapFollows (spaces (count + 1) ++ (more ++ tail)) = true := rfl
  have notEnd : spaces (count + 1) ++ (more ++ tail) ≠ [] := by simp [spaces]
  rw [readPlain?, here, read]
  simp only [noMark, noComment, Bool.false_or, decide_false, Bool.false_eq_true, if_false,
    Option.bind_eq_bind, Option.bind_some, inhabited, Cursor.advance_length cursor line,
    follows, notEnd, gapRead, inside, Bool.not_true, Bool.not_false, Bool.and_false]
  cases readPlain? false indent (count + 1 + left) { blanks := spaces (count + 1) }
    (cursor.past (run ++ spaces (count + 1))) <;> rfl

/-- A text of words with spaces between them, each as it can stand without quotes. -/
structure IsSpaced (text : List Char) : Prop where
  inhabited : text ≠ []
  head?_ne : text.head? ≠ some ' '
  getLast?_ne : text.getLast? ≠ some ' '
  gaps : ∀ c ∈ text, isGap c = true → c = ' '
  noIndicator : holdsIndicator true text = false

theorem IsSpaced.noGap {run : List Char} (spaced : IsSpaced text) (within : run ⊆ text)
    (noSpace : ∀ c ∈ run, decide (c = ' ') = false) : ∀ c ∈ run, isGap c = false := by
  intro c member
  by_contra isGap
  simpa [spaced.gaps c (within member) (by simpa using isGap)] using noSpace c member

theorem IsSpaced.endsGap (spaced : IsSpaced text) (tail : List Char) : EndsGap (text ++ tail) := by
  obtain ⟨c, rest, rfl⟩ := List.exists_cons_of_ne_nil spaced.inhabited
  intro d member
  by_contra isGap
  cases member
  exact spaced.head?_ne (congrArg some (spaced.gaps c List.mem_cons_self (by simpa using isGap)))

/-- What stands behind the first spaces is a text of words again. -/
theorem IsSpaced.behind {run rest : List Char} {count : Nat}
    (spaced : IsSpaced (run ++ (spaces (count + 1) ++ rest))) (first : rest.head? ≠ some ' ') :
    IsSpaced rest := by
  have last := spaced.getLast?_ne
  have absent := spaced.noIndicator
  rw [spaces, List.replicate_succ', ← List.append_assoc, ← List.append_assoc,
    List.append_assoc _ [' '] rest] at absent
  have inhabited : rest ≠ [] := by
    rintro rfl
    apply last
    rw [List.append_nil, spaces, List.replicate_succ', ← List.append_assoc]
    exact List.getLast?_concat
  rw [← List.append_assoc, List.getLast?_append_of_ne_nil _ inhabited] at last
  exact ⟨inhabited, first, last, fun c member =>
    spaced.gaps c (List.mem_append_right _ (List.mem_append_right _ member)),
    holdsIndicator_of_append absent⟩

theorem IsPlainText.isSpaced (plain : IsPlainText text) : IsSpaced text where
  inhabited := plain.inhabited
  head?_ne := plain.head?_ne
  getLast?_ne := plain.getLast?_ne
  gaps c member := eq_space_of_isPrintable (plain.printable c member) (plain.noBreak c member)
  noIndicator := plain.noIndicator

/-- Plain text is read from wherever it stands outside of brackets. -/
theorem readPlain?_append (ends : PlainEnd indent tail broken crossed) (text : List Char) :
    ∀ {cursor : Cursor} {fuel : Nat} {gap : Gap}, IsSpaced text →
      cursor.atDocumentMark = false → cursor.rest = text ++ tail →
      text.length + crossed.length < fuel → indent ≤ cursor.column + 2 →
      readPlain? false indent fuel gap cursor =
        some (gap.fold ++ text, broken, cursor.past (text ++ crossed)) := by
  induction text using induction_gaps (· = ' ') with
  | last run noSpace =>
      intro cursor fuel gap spaced noMark here enough _
      obtain ⟨fuel, rfl⟩ := Nat.exists_eq_add_of_lt enough
      exact readPlain?_run ends spaced.inhabited (spaced.noGap (fun _ member => member) noSpace)
        spaced.noIndicator (by omega) noMark here
  | more run gap rest noSpace inhabited blank restEnds ih =>
      intro cursor fuel before spaced noMark here enough indented
      obtain ⟨count, rfl⟩ := exists_eq_spaces inhabited fun c member => by
        simpa using blank c member
      have later := spaced.behind fun space => by simpa using restEnds ' ' space
      have runInhabited : run ≠ [] := by
        rintro rfl
        exact spaced.head?_ne rfl
      have noGap := spaced.noGap (List.subset_append_left run _) noSpace
      simp only [List.append_assoc] at here
      rw [List.length_append, List.length_append, spaces, List.length_replicate] at enough
      obtain ⟨fuel, rfl⟩ := Nat.exists_eq_add_of_lt enough
      have behind : (cursor.past (run ++ spaces (count + 1))).rest = rest ++ tail :=
        Cursor.past_rest (by rw [here, List.append_assoc])
      have column : (cursor.past (run ++ spaces (count + 1))).column =
          cursor.column + run.length + (count + 1) :=
        past_spaces_column (isBreak_of_isGap noGap) _
      have noMarkBehind : (cursor.past (run ++ spaces (count + 1))).atDocumentMark = false := by
        simp [Cursor.atDocumentMark, Cursor.atMark, column]
      rw [readPlain?_spaces runInhabited noGap spaced.noIndicator (later.endsGap tail) (by omega)
        noMark here indented, ih later noMarkBehind behind (by omega) (by omega)]
      simp [Gap.fold, Cursor.past_append]

/-- A plain text does not begin with the mark of a document. -/
theorem IsPlainText.not_atDocumentMark (plain : IsPlainText text)
    (ends : PlainEnd indent tail broken crossed) (here : cursor.rest = text ++ tail) :
    cursor.atDocumentMark = false := by
  have noStart := plain.noStart
  have mark (c : Char) (isMark : c = '-' ∨ c = '.') : cursor.atMark c = false := by
    have tailHead : ∃ d more, tail = d :: more ∧ d ≠ c := by
      cases ends with
      | colon => exact ⟨_, _, rfl, by rcases isMark with rfl | rfl <;> decide⟩
      | line => exact ⟨_, _, rfl, by rcases isMark with rfl | rfl <;> decide⟩
    obtain ⟨d, more, rfl, different⟩ := tailHead
    rw [Cursor.atMark, here]
    match text, plain.inhabited, noStart with
    | [x], _, _ => cases more <;> simp [different]
    | [x, y], _, _ => simp [different]
    | x :: y :: z :: rest, _, noStart =>
        by_cases same : x = c ∧ y = c ∧ z = c
        · obtain ⟨rfl, rfl, rfl⟩ := same
          rcases isMark with rfl | rfl <;> cases noStart
        · simp [← Bool.and_assoc]
          grind
  rw [Cursor.atDocumentMark, mark '-' (.inl rfl), mark '.' (.inr rfl)]
  rfl

/-- A plain text is read from where it begins. -/
theorem IsPlainText.readPlain?_eq (plain : IsPlainText text)
    (ends : PlainEnd indent tail broken crossed) (here : cursor.rest = text ++ tail) {fuel : Nat}
    (enough : text.length + crossed.length < fuel) (indented : indent ≤ cursor.column + 2) :
    readPlain? false indent fuel {} cursor =
      some (text, broken, cursor.past (text ++ crossed)) :=
  readPlain?_append ends text plain.isSpaced (plain.not_atDocumentMark ends here) here enough
    indented

end Reading

section Written

/-- The characters of numbers are printable marks that end nothing. -/
theorem isPrintable_of_isNumeralPart {c : Char} (part : isNumeralPart c = true) :
    isPrintable c = true ∧ isGap c = false ∧ c ≠ ':' ∧ c ≠ '#' ∧ c ≠ ' ' := by
  simp only [isNumeralPart, Bool.or_eq_true, decide_eq_true_eq] at part
  rcases part with (((digit | rfl) | rfl) | rfl) | rfl
  · have bounds := Char.isDigit_iff_toNat.mp digit
    have first : '0'.toNat = 0x30 := rfl
    have last : '9'.toNat = 0x39 := rfl
    have different (d : Char) (outside : d.toNat < 0x30 ∨ 0x39 < d.toNat) : c ≠ d := by
      rintro rfl
      omega
    refine ⟨?_, ?_, different _ (by decide), different _ (by decide), different _ (by decide)⟩
    · simp only [isPrintable, Bool.or_eq_true, Bool.and_eq_true, decide_eq_true_eq]
      omega
    · simp [isGap, isBlank, isBreak, different]
  all_goals decide

theorem holdsIndicator_of_isNumeralPart {text : List Char} {behindGap : Bool}
    (parts : ∀ c ∈ text, isNumeralPart c = true) : holdsIndicator behindGap text = false := by
  induction text generalizing behindGap with
  | nil => rfl
  | cons c text ih =>
      obtain ⟨-, -, noColon, noComment, -⟩ :=
        isPrintable_of_isNumeralPart (parts c List.mem_cons_self)
      rw [holdsIndicator, ih fun d member => parts d (List.mem_cons_of_mem c member)]
      simp [noColon, noComment]

theorem isPlainText_of_isSigned {text rest : List Char} {negative : Bool} {digit : Char}
    (signed : IsSigned text negative digit rest) : IsPlainText text := by
  have parts : ∀ c ∈ text, isNumeralPart c = true := by
    obtain ⟨rfl, numeral⟩ := signed
    have first := isNumeralPart_of_isDigit numeral.isDigit
    cases negative with
    | true => exact List.forall_mem_cons.mpr ⟨rfl, List.forall_mem_cons.mpr ⟨first, numeral.parts⟩⟩
    | false => exact List.forall_mem_cons.mpr ⟨first, numeral.parts⟩
  have noStart : startsWithIndicator text = false := by
    obtain ⟨rfl, isDigit, -⟩ := signed
    have different (d : Char) (other : d.isDigit = false) : digit ≠ d := by
      rintro rfl
      exact Bool.false_ne_true (other.symm.trans isDigit)
    have noGap := (isPrintable_of_isNumeralPart (isNumeralPart_of_isDigit isDigit)).2.1
    cases negative with
    | true => simp [startsWithIndicator, indicators, gapFollows, noGap, different]
    | false => simp [startsWithIndicator, indicators, different]
  have noSpace : ' ' ∉ text := fun member => absurd (parts ' ' member) (by decide)
  refine ⟨signed.isEmpty, fun c member => (isPrintable_of_isNumeralPart (parts c member)).1, ?_⟩
  have noBreak : text.any isBreak = false := List.any_eq_false.mpr fun c member => by
    have noGap := (isPrintable_of_isNumeralPart (parts c member)).2.1
    rw [isGap, Bool.or_eq_false_iff] at noGap
    simp [noGap.2]
  rw [fitsPlain, noStart, holdsIndicator_of_isNumeralPart parts, noBreak,
    decide_eq_true (show text.head? ≠ some ' ' from fun first => noSpace (List.mem_of_head? first)),
    decide_eq_true (show text.getLast? ≠ some ' ' from fun last =>
      noSpace (List.mem_of_getLast? last))]
  rfl

/-- A text in plain style is plain, and is read as a text. -/
theorem isPlainText_of_styleOf {text : String} (style : styleOf text = .plain) :
    IsPlainText text.toList ∧ plainOf text = .text := by
  simp only [styleOf] at style
  split at style
  · cases style
  next noEscape =>
    split at style
    · split at style <;> cases style
    · split at style
      next fits =>
        rw [Bool.and_eq_true, Bool.not_eq_true', isAmbiguous, Bool.or_eq_false_iff] at fits
        obtain ⟨⟨noZero, isText⟩, fits⟩ := fits
        have same : plainOf text = .text := by
          revert isText
          cases plainOf text <;> simp
        refine ⟨⟨?_, ?_, fits⟩, same⟩
        · intro empty
          have void : text = "" := String.toList_inj.mp empty
          rw [void, plainOf, if_pos (.inl rfl)] at same
          cases same
        · rw [needsEscape, Bool.or_eq_true, not_or, Bool.not_eq_true, List.any_eq_false] at noEscape
          simpa using noEscape.1
      next => split at style <;> cases style

end Written

end ApiAssembly.Yaml
