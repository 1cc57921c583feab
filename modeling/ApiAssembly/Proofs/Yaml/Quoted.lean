import ApiAssembly.Proofs.Yaml.Gap
import ApiAssembly.Yaml.Scalar
import Mathlib.Tactic.Ring

/-!
# Reading quoted text

A quoted text is a row of runs, character by character in quotes, with gaps between them.  It
is read back from behind its opening quote, whichever quotes it stands in.
-/

namespace ApiAssembly.Yaml

/-- The quote that a text stands in. -/
def quoteMark (single : Bool) : Char :=
  if single then '\'' else '"'

section Characters

variable {single : Bool} {c : Char} {written : List Char}

/-- A character within quotes, with the text that stands for it. -/
structure Quotes (single : Bool) (c : Char) (written : List Char) : Prop where
  line : ∀ d ∈ written, isBreak d = false
  starts : ∃ d more, written = d :: more ∧ isGap d = false
  read (fuel : Nat) (rest : List Char) : quotedRun? single (fuel + 1) (written ++ rest) =
    (quotedRun? single fuel rest).map fun (run, count) => (c :: run, written.length + count)

theorem quotes_quote : Quotes true '\'' ['\'', '\''] where
  line := by decide
  starts := ⟨_, _, rfl, rfl⟩
  read fuel rest := by simp [quotedRun?, isGap, isBlank, isBreak]

theorem quotes_single (noGap : isGap c = false) (noQuote : c ≠ '\'') : Quotes true c [c] where
  line := List.forall_mem_singleton.mpr (by
    rw [isGap, Bool.or_eq_false_iff] at noGap
    exact noGap.2)
  starts := ⟨c, [], rfl, noGap⟩
  read fuel rest := by simp [quotedRun?, noGap, noQuote]

theorem quotes_plain (noGap : isGap c = false) (noQuote : c ≠ '"') (noEscape : c ≠ '\\') :
    Quotes false c [c] where
  line := List.forall_mem_singleton.mpr (by
    rw [isGap, Bool.or_eq_false_iff] at noGap
    exact noGap.2)
  starts := ⟨c, [], rfl, noGap⟩
  read fuel rest := by simp [quotedRun?, noGap, noQuote, noEscape]

/-- An escape that is read back within double quotes. -/
theorem quotes_escape {escaped : List Char} (line : ∀ d ∈ escaped, isBreak d = false)
    (inhabited : escaped ≠ [])
    (read : ∀ rest, readEscape? (escaped ++ rest) = some (c, escaped.length)) :
    Quotes false c ('\\' :: escaped) where
  line := List.forall_mem_cons.mpr ⟨rfl, line⟩
  starts := ⟨_, _, rfl, rfl⟩
  read fuel rest := by
    obtain ⟨d, more, rfl⟩ := List.exists_cons_of_ne_nil inhabited
    have behind : ((d :: more ++ rest).head?.any isBreak) = false := line d List.mem_cons_self
    have found := read rest
    simp only [List.cons_append] at found behind
    rw [List.cons_append, List.cons_append, quotedRun?, if_neg (by decide), if_neg (by decide),
      if_neg (by decide), if_pos rfl, behind, if_neg Bool.false_ne_true, found]
    simp [Nat.add_comm, Nat.add_left_comm]

theorem hexDigit?_digitChar {digit : Nat} (small : digit < 16) :
    Json.hexDigit? digit.digitChar.toUpper = some digit := by
  revert digit
  decide

theorem readCode?_succ (count value : Nat) (text : List Char) :
    readCode? (count + 1) value text =
      (readCode? count value text).bind fun (value, rest) => readCode? 1 value rest := by
  induction count generalizing value text with
  | zero => rfl
  | succ count ih =>
      cases text with
      | nil => rfl
      | cons c text =>
          rw [readCode?, readCode?]
          cases Json.hexDigit? c with
          | none => rfl
          | some digit => exact ih _ text

/-- Written hexadecimal digits are read as the number. -/
theorem readCode?_hexDigits (count code value : Nat) (rest : List Char) :
    readCode? count value (hexDigits count code ++ rest) =
      some (value * 16 ^ count + code % 16 ^ count, rest) := by
  induction count generalizing code rest with
  | zero => simp [hexDigits, readCode?, Nat.mod_one]
  | succ count ih =>
      have digit := hexDigit?_digitChar (Nat.mod_lt code (by decide : 0 < 16))
      have split : code % 16 ^ (count + 1) = code / 16 % 16 ^ count * 16 + code % 16 := by
        rw [Nat.pow_succ, Nat.mul_comm, Nat.mod_mul]
        omega
      rw [readCode?_succ, hexDigits, List.append_assoc, ih, Option.bind_some]
      simp only [List.singleton_append, readCode?, digit, Option.bind_eq_bind, Option.bind_some,
        split, Option.some.injEq, Prod.mk.injEq, and_true]
      rw [Nat.pow_succ]
      ring

theorem length_hexDigits (count code : Nat) : (hexDigits count code).length = count := by
  induction count generalizing code with
  | zero => rfl
  | succ count ih => rw [hexDigits, List.length_append, ih]; rfl

theorem isBreak_of_mem_hexDigits {count code : Nat} :
    ∀ d ∈ hexDigits count code, isBreak d = false := by
  induction count generalizing code with
  | zero => simp [hexDigits]
  | succ count ih =>
      have digits : ∀ digit < 16, isBreak digit.digitChar.toUpper = false := by decide
      rw [hexDigits, List.forall_mem_append, List.forall_mem_singleton]
      exact ⟨ih, digits _ (Nat.mod_lt code (by decide))⟩

theorem codeChar?_toNat (c : Char) : codeChar? c.toNat = some c := by
  have valid : c.toNat.isValidChar := c.valid
  rw [codeChar?, dif_pos valid]
  rfl

/-- A character that is shown by its number. -/
theorem quotes_code {mark : Char} {count : Nat} (length : codeLength? mark = some count)
    (line : isBreak mark = false) (small : c.toNat < 16 ^ count) :
    Quotes false c ('\\' :: mark :: hexDigits count c.toNat) := by
  refine quotes_escape (List.forall_mem_cons.mpr ⟨line, isBreak_of_mem_hexDigits⟩) (by simp) ?_
  intro rest
  rw [List.cons_append, readEscape?, length]
  simp [readCode?_hexDigits, Nat.mod_eq_of_lt small, codeChar?_toNat, length_hexDigits]

/-- A character that is shown by a letter. -/
theorem quotes_letter {letter : Char} (found : escapeLetter? c = some letter) :
    Quotes false c ['\\', letter] := by
  have letters : letterEscape? letter = some c ∧ codeLength? letter = none ∧
      isBreak letter = false := by
    rw [escapeLetter?.eq_def] at found
    split at found <;> cases found <;> exact ⟨rfl, rfl, rfl⟩
  obtain ⟨back, noCode, line⟩ := letters
  refine quotes_escape (List.forall_mem_singleton.mpr line) (by simp) ?_
  intro rest
  rw [List.singleton_append, readEscape?, noCode]
  simp [back]

theorem isGap_of_escapeLetter? (noSpace : c ≠ ' ') (noLetter : escapeLetter? c = none) :
    isGap c = false ∧ c ≠ '"' ∧ c ≠ '\\' := by
  have different (d letter : Char) (found : escapeLetter? d = some letter) : c ≠ d := by
    rintro rfl
    exact absurd (noLetter.symm.trans found) (by simp)
  refine ⟨?_, different _ _ rfl, different _ _ rfl⟩
  simp [isGap, isBlank, isBreak, noSpace, different '\t' 't' rfl, different '\n' 'n' rfl,
    different '\r' 'r' rfl, different '\u0085' 'N' rfl, different '\u2028' 'L' rfl,
    different '\u2029' 'P' rfl]

/-- Every character but the space is read back from its escape. -/
theorem quotes_double (noSpace : c ≠ ' ') : Quotes false c (escape c) := by
  rw [escape]
  split
  next letter found => exact quotes_letter found
  next noLetter =>
    obtain ⟨noGap, noQuote, noEscape⟩ := isGap_of_escapeLetter? noSpace noLetter
    split
    · exact quotes_plain noGap noQuote noEscape
    · have valid : c.toNat < 16 ^ 8 := by
        have bound : c.toNat < 0xD800 ∨ 0xDFFF < c.toNat ∧ c.toNat < 0x110000 := c.valid
        omega
      rw [escapeCode]
      split
      next small => exact quotes_code rfl rfl small
      next =>
        split
        next small => exact quotes_code rfl rfl small
        next => exact quotes_code rfl rfl valid

end Characters

section Texts

variable {single : Bool} {encode : Char → List Char} {run text body tail : List Char}
  {cursor : Cursor}

/-- A break that is kept within single quotes. -/
def isSeparator (c : Char) : Bool :=
  c = '\u2028' || c = '\u2029'

theorem isPlainBreak_of_isSeparator {c : Char} (separator : isSeparator c = true) :
    isPlainBreak c = true := by
  simp only [isSeparator, Bool.or_eq_true, decide_eq_true_eq] at separator
  rcases separator with rfl | rfl <;> rfl

theorem isGap_of_isPlainBreak {c : Char} (isBreak : isPlainBreak c = true) : isGap c = true := by
  rw [isGap, Cursor.isBreak_of_isPlainBreak isBreak, Bool.or_true]

/-- A text with what stands for it up to the closing quote. -/
inductive Enquotes (single : Bool) (encode : Char → List Char) : List Char → List Char → Prop
  | last {run : List Char} (quotes : ∀ c ∈ run, Quotes single c (encode c)) :
      Enquotes single encode run (run.flatMap encode ++ [quoteMark single])
  | spaces {run text body : List Char} (quotes : ∀ c ∈ run, Quotes single c (encode c))
      (count : Nat) (ends : EndsGap body) (later : Enquotes single encode text body) :
      Enquotes single encode (run ++ (spaces (count + 1) ++ text))
        (run.flatMap encode ++ (spaces (count + 1) ++ body))
  | breaks {run text body : List Char} (quotes : ∀ c ∈ run, Quotes single c (encode c))
      {first : Char} {more : List Char} (separators : ∀ c ∈ first :: more, isSeparator c = true)
      {indent : Nat} (indented : 0 < indent) (ends : EndsGap body)
      (later : Enquotes single encode text body) :
      Enquotes single encode (run ++ (first :: more ++ text))
        (run.flatMap encode ++ (first :: more ++ (spaces indent ++ body)))

/-- What stands behind a run. -/
def StopsRun (single : Bool) (tail : List Char) : Prop :=
  ∀ fuel, quotedRun? single fuel tail = some ([], 0)

theorem stopsRun_of_isGap {c : Char} (gap : isGap c = true) (rest : List Char) :
    StopsRun single (c :: rest) := by
  intro fuel
  cases fuel with
  | zero => rfl
  | succ fuel => rw [quotedRun?, if_pos gap]

/-- A closing quote is not the first half of a quote that is written twice. -/
theorem stopsRun_of_quoteMark (behind : tail.head? ≠ some '\'') :
    StopsRun single (quoteMark single :: tail) := by
  intro fuel
  cases fuel with
  | zero => rfl
  | succ fuel =>
      cases single with
      | true => simp [quotedRun?, quoteMark, isGap, isBlank, isBreak, behind]
      | false => simp [quotedRun?, quoteMark, isGap, isBlank, isBreak]

theorem quotedRun?_flatMap (quotes : ∀ c ∈ run, Quotes single c (encode c))
    (stops : StopsRun single tail) {fuel : Nat} (enough : run.length ≤ fuel) :
    quotedRun? single fuel (run.flatMap encode ++ tail) =
      some (run, (run.flatMap encode).length) := by
  induction run generalizing fuel with
  | nil => exact stops fuel
  | cons c run ih =>
      obtain ⟨fuel, rfl⟩ := Nat.exists_eq_add_of_le' enough
      have later := @ih (fun d member => quotes d (List.mem_cons_of_mem c member))
        (fuel + run.length) (Nat.le_add_left _ _)
      rw [List.flatMap_cons, List.append_assoc, List.length_cons, ← Nat.add_assoc,
        (quotes c List.mem_cons_self).read, later]
      simp

theorem isBreak_of_mem_flatMap (quotes : ∀ c ∈ run, Quotes single c (encode c)) :
    ∀ d ∈ run.flatMap encode, isBreak d = false := by
  intro d member
  obtain ⟨c, inRun, inside⟩ := List.mem_flatMap.mp member
  exact (quotes c inRun).line d inside

theorem length_le_flatMap (quotes : ∀ c ∈ run, Quotes single c (encode c)) :
    run.length ≤ (run.flatMap encode).length := by
  induction run with
  | nil => exact Nat.le_refl _
  | cons c run ih =>
      obtain ⟨d, more, shape, -⟩ := (quotes c List.mem_cons_self).starts
      have later := ih fun d member => quotes d (List.mem_cons_of_mem c member)
      rw [List.flatMap_cons, List.length_append, List.length_cons, shape, List.length_cons]
      omega

theorem not_atDocumentMark {cursor : Cursor} (inside : cursor.column ≠ 0) :
    cursor.atDocumentMark = false := by
  simp [Cursor.atDocumentMark, Cursor.atMark, inside]

/-- A run with the closing quote behind it. -/
theorem readQuoted?_last (quotes : ∀ c ∈ run, Quotes single c (encode c))
    (behind : tail.head? ≠ some '\'') {fuel : Nat} (enough : run.length ≤ fuel)
    (inside : cursor.column ≠ 0)
    (here : cursor.rest = run.flatMap encode ++ (quoteMark single :: tail)) :
    readQuoted? single (fuel + 1) cursor =
      some (run, cursor.past (run.flatMap encode ++ [quoteMark single])) := by
  have line := isBreak_of_mem_flatMap quotes
  have after := Cursor.past_rest here
  have noBreak : isBreak (quoteMark single) = false := by
    cases single <;> rfl
  have noEscape : quoteMark single ≠ '\\' := by
    cases single <;> decide
  rw [readQuoted?, here, quotedRun?_flatMap quotes (stopsRun_of_quoteMark behind) enough]
  simp only [not_atDocumentMark inside, Bool.false_eq_true, if_false, Option.bind_eq_bind,
    Option.bind_some, Cursor.advance_length cursor line, Cursor.peek?, after, List.head?_cons,
    Option.some.injEq, noEscape]
  rw [if_pos (by rw [quoteMark]), Cursor.past_append,
    @Cursor.advance_one (cursor.past (run.flatMap encode)) _ noBreak]
  rfl

/-- A run with a gap behind it. -/
theorem readQuoted?_gap (quotes : ∀ c ∈ run, Quotes single c (encode c)) {c : Char}
    {more rest written : List Char} {gap : Gap} (isGap : isGap c = true) {fuel : Nat}
    (enough : run.length ≤ fuel) (inside : cursor.column ≠ 0)
    (here : cursor.rest = run.flatMap encode ++ (c :: more)) (inhabited : rest ≠ [])
    (crossed : (cursor.past (run.flatMap encode ++ written)).rest = rest)
    (gapRead : Gap.read? none fuel {} (cursor.past (run.flatMap encode)) =
      some (gap, cursor.past (run.flatMap encode ++ written))) :
    readQuoted? single (fuel + 1) cursor =
      (readQuoted? single fuel (cursor.past (run.flatMap encode ++ written))).map
        fun (text, cursor) => (run ++ gap.fold ++ text, cursor) := by
  have line := isBreak_of_mem_flatMap quotes
  have after := Cursor.past_rest here
  have noQuote : c ≠ quoteMark single := by
    rintro rfl
    cases single <;> cases isGap
  have noEscape : c ≠ '\\' := by
    rintro rfl
    cases isGap
  rw [readQuoted?, here, quotedRun?_flatMap quotes (stopsRun_of_isGap isGap more) enough]
  simp only [not_atDocumentMark inside, Bool.false_eq_true, if_false, Option.bind_eq_bind,
    Option.bind_some, Cursor.advance_length cursor line, Cursor.peek?, after, List.head?_cons,
    Option.some.injEq, noEscape]
  rw [if_neg (by rw [quoteMark] at noQuote; exact noQuote), gapRead]
  simp only [Option.bind_some, crossed, inhabited, if_false]
  cases readQuoted? single fuel (cursor.past (run.flatMap encode ++ written)) <;> rfl

theorem Enquotes.inhabited (enquotes : Enquotes single encode text body) : body ≠ [] := by
  cases enquotes with
  | last => simp
  | spaces _ _ _ => simp [Yaml.spaces]
  | breaks => simp

/-- A quoted text ends with its quote. -/
theorem Enquotes.getLast?_eq (enquotes : Enquotes single encode text body) :
    body.getLast? = some (quoteMark single) := by
  induction enquotes with
  | last => exact List.getLast?_concat
  | spaces _ _ _ _ ih => rw [← List.append_assoc, List.getLast?_append, ih, Option.some_or]
  | breaks _ _ _ _ _ ih =>
      rw [← List.append_assoc, ← List.append_assoc, List.getLast?_append, ih, Option.some_or]

/-- A run with spaces behind it, which count as they stand. -/
theorem readQuoted?_spaces (quotes : ∀ c ∈ run, Quotes single c (encode c)) {count left : Nat}
    {rest : List Char} (ends : EndsGap rest) (inhabited : rest ≠ [])
    (enough : run.length ≤ left + (count + 1)) (inside : cursor.column ≠ 0)
    (here : cursor.rest = run.flatMap encode ++ (spaces (count + 1) ++ rest)) :
    readQuoted? single (left + (count + 1) + 1) cursor =
      (readQuoted? single (left + (count + 1))
        (cursor.past (run.flatMap encode ++ spaces (count + 1)))).map
        fun (text, cursor) => (run ++ spaces (count + 1) ++ text, cursor) := by
  have after := Cursor.past_rest here
  have crossed : (cursor.past (run.flatMap encode ++ spaces (count + 1))).rest = rest := by
    rw [Cursor.past_append]
    exact Cursor.past_rest after
  have gapRead : Gap.read? none (left + (count + 1)) {} (cursor.past (run.flatMap encode)) =
      some ({ blanks := spaces (count + 1) },
        cursor.past (run.flatMap encode ++ spaces (count + 1))) := by
    rw [Gap.read?_spaces rfl (count + 1) left after, ← Cursor.past_append]
    exact Gap.read?_of_endsGap (by rwa [crossed]) left
  rw [readQuoted?_gap quotes rfl enough inside here inhabited crossed gapRead]
  rfl

/-- A run with breaks behind it.  They count as they stand, and the indentation of the next line
does not count. -/
theorem readQuoted?_breaks (quotes : ∀ c ∈ run, Quotes single c (encode c)) {first : Char}
    {more rest : List Char} {indent left : Nat}
    (separators : ∀ c ∈ first :: more, isSeparator c = true) (ends : EndsGap rest)
    (inhabited : rest ≠ []) (enough : run.length ≤ left + indent + more.length + 1)
    (inside : cursor.column ≠ 0)
    (here : cursor.rest = run.flatMap encode ++ (first :: (more ++ (spaces indent ++ rest)))) :
    readQuoted? single (left + indent + more.length + 1 + 1) cursor =
      (readQuoted? single (left + indent + more.length + 1)
        (cursor.past (run.flatMap encode ++ (first :: more ++ spaces indent)))).map
        fun (text, cursor) => (run ++ (first :: more) ++ text, cursor) := by
  have separator := separators first List.mem_cons_self
  have isBreak := isPlainBreak_of_isSeparator separator
  have moreBreaks : ∀ c ∈ more, isPlainBreak c = true := fun c member =>
    isPlainBreak_of_isSeparator (separators c (List.mem_cons_of_mem first member))
  have after := Cursor.past_rest here
  have behindFirst : ((cursor.past (run.flatMap encode)).step first).rest =
      more ++ (spaces indent ++ rest) := by
    rw [Cursor.step_rest, after]
    rfl
  have behindBreaks := Cursor.past_rest behindFirst
  have written : cursor.past (run.flatMap encode ++ (first :: more ++ spaces indent)) =
      (((cursor.past (run.flatMap encode)).step first).past more).past (spaces indent) := by
    rw [Cursor.past_append, Cursor.past_append, Cursor.past_cons]
  have crossed : (cursor.past (run.flatMap encode ++ (first :: more ++ spaces indent))).rest =
      rest := by
    rw [written]
    exact Cursor.past_rest behindBreaks
  have gapRead : Gap.read? none (left + indent + more.length + 1) {}
      (cursor.past (run.flatMap encode)) =
      some ({ broken := true, first := [first], more },
        cursor.past (run.flatMap encode ++ (first :: more ++ spaces indent))) := by
    rw [Gap.read?_break rfl _ isBreak after, Gap.read?_breaks rfl _ moreBreaks behindFirst,
      Gap.read?_indentation rfl indent left behindBreaks, ← written]
    exact Gap.read?_of_endsGap (by rwa [crossed]) left
  -- a line feed would be folded, and a separator is none
  have notLineFeed : first ≠ '\n' := by
    rintro rfl
    cases separator
  rw [readQuoted?_gap quotes (isGap_of_isPlainBreak isBreak) enough inside here inhabited crossed
    gapRead]
  simp [Gap.fold, notLineFeed]

/-- A quoted text is read from behind its opening quote. -/
theorem Enquotes.read (enquotes : Enquotes single encode text body)
    (behind : tail.head? ≠ some '\'') :
    ∀ {cursor : Cursor} {fuel : Nat}, cursor.column ≠ 0 → cursor.rest = body ++ tail →
      body.length ≤ fuel →
      readQuoted? single fuel cursor = some (text, cursor.past body) := by
  induction enquotes with
  | last quotes =>
      intro cursor fuel inside here enough
      have length := length_le_flatMap quotes
      rw [List.length_append, List.length_singleton] at enough
      obtain ⟨fuel, rfl⟩ : ∃ less, fuel = less + 1 := ⟨fuel - 1, by omega⟩
      exact readQuoted?_last quotes behind (by omega) inside (by rw [here]; simp)
  | @spaces run text body quotes count ends later ih =>
      intro cursor fuel inside here enough
      have length := length_le_flatMap quotes
      have positive := List.length_pos_iff.mpr later.inhabited
      rw [List.append_assoc, List.append_assoc] at here
      rw [List.length_append, List.length_append, Yaml.spaces, List.length_replicate] at enough
      obtain ⟨left, rfl⟩ : ∃ left, fuel = left + (count + 1) + 1 := ⟨fuel - count - 2, by omega⟩
      have crossed : (cursor.past (run.flatMap encode ++ Yaml.spaces (count + 1))).rest =
          body ++ tail :=
        Cursor.past_rest (by rw [here, List.append_assoc])
      have column : (cursor.past (run.flatMap encode ++ Yaml.spaces (count + 1))).column ≠ 0 := by
        rw [Cursor.past_append, Cursor.past_column isBreak_of_mem_spaces,
          Cursor.past_column (isBreak_of_mem_flatMap quotes)]
        omega
      rw [readQuoted?_spaces quotes (ends.append later.inhabited tail) (by simp [later.inhabited])
        (by omega) inside here, ih column crossed (by omega)]
      simp [Cursor.past_append]
  | @breaks run text body quotes first more separators indent indented ends later ih =>
      intro cursor fuel inside here enough
      have length := length_le_flatMap quotes
      have positive := List.length_pos_iff.mpr later.inhabited
      simp only [List.append_assoc, List.cons_append] at here
      simp only [List.length_append, List.length_cons, Yaml.spaces, List.length_replicate] at enough
      obtain ⟨left, rfl⟩ : ∃ left, fuel = left + indent + more.length + 1 + 1 :=
        ⟨fuel - indent - more.length - 2, by omega⟩
      have crossed : (cursor.past (run.flatMap encode ++
          (first :: more ++ Yaml.spaces indent))).rest = body ++ tail :=
        Cursor.past_rest (by simpa using here)
      have column : (cursor.past (run.flatMap encode ++
          (first :: more ++ Yaml.spaces indent))).column ≠ 0 := by
        rw [Cursor.past_append, Cursor.past_append, Cursor.past_column isBreak_of_mem_spaces,
          Yaml.spaces, List.length_replicate]
        omega
      rw [readQuoted?_breaks quotes separators (ends.append later.inhabited tail)
        (by simp [later.inhabited]) (by omega) inside here, ih column crossed (by omega)]
      simp [Cursor.past_append]

end Texts

end ApiAssembly.Yaml
