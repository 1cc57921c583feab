import ApiAssembly.Proofs.Yaml.Enquoting
import ApiAssembly.Proofs.Yaml.Literal
import ApiAssembly.Proofs.Yaml.PlainText

/-!
# The forms of written scalars

Every text fits the style in which it is written, and so do the texts of null, booleans and
numbers, which are plain.
-/

namespace ApiAssembly.Yaml

section Forms

variable {indent : Nat} {text : List Char} {c : Char}

/-- A scalar with the text that stands for it where lines have an indentation, and whether
it is plain. -/
inductive Writes (indent : Nat) (text : List Char) : Bool → List Char → Prop
  | plain (plain : IsPlainText text) : Writes indent text true text
  | quoted {single : Bool} {encode : Char → List Char} {body : List Char}
      (enquotes : Enquotes single encode text body) :
      Writes indent text false (quoteMark single :: body)
  | literal (fits : FitsLiteral text) (long : '\n' ∈ text) :
      Writes indent text false (writeLiteral indent text)

theorem isPlainBreak_of_isPrintable (printable : isPrintable c = true) (ends : isBreak c = true) :
    isPlainBreak c = true := by
  simp only [isBreak, Bool.or_eq_true, decide_eq_true_eq] at ends
  rcases ends with (((rfl | rfl) | rfl) | rfl) | rfl
  · rfl
  · exact absurd printable (by decide)
  · exact absurd printable (by decide)
  · rfl
  · rfl

theorem needsEscape_eq_false (noEscape : needsEscape text = false) :
    (∀ c ∈ text, isPrintable c = true) ∧ hasPair (· = ' ') isBreak text = false := by
  rw [needsEscape, Bool.or_eq_false_iff, List.any_eq_false] at noEscape
  exact ⟨by simpa using noEscape.1, noEscape.2⟩

/-- A text with line feeds and without a need for escapes fits a literal block. -/
theorem fitsLiteral_of_needsEscape (noEscape : needsEscape text = false) (long : '\n' ∈ text) :
    FitsLiteral text where
  inhabited := List.ne_nil_of_mem long
  breaks c member := isPlainBreak_of_isPrintable ((needsEscape_eq_false noEscape).1 c member)
  noTab member := absurd ((needsEscape_eq_false noEscape).1 '\t' member) (by decide)

theorem fitsSingle_of_needsEscape (noEscape : needsEscape text = false) (line : '\n' ∉ text)
    (breakSpace : hasPair isBreak (· = ' ') text = false)
    (indented : ∀ c ∈ text, isBreak c = true → 0 < indent) : FitsSingle indent text where
  gaps c member gap := by
    have printable := (needsEscape_eq_false noEscape).1 c member
    cases ends : isBreak c with
    | false => exact .inl (eq_space_of_isPrintable printable ends gap)
    | true =>
        have plain := isPlainBreak_of_isPrintable printable ends
        have different : c ≠ '\n' := by
          rintro rfl
          exact line member
        simp only [isPlainBreak, different, decide_false, Bool.false_or] at plain
        exact .inr plain
  spaceBreak := (needsEscape_eq_false noEscape).2
  breakSpace := breakSpace
  indented := indented

theorem literal_of_styleOf {text : String} (style : styleOf text = .literal) :
    needsEscape text.toList = false ∧ '\n' ∈ text.toList := by
  simp only [styleOf] at style
  split at style
  · cases style
  next noEscape =>
    split at style
    next long => exact ⟨Bool.not_eq_true _ ▸ noEscape, by simpa using long⟩
    next =>
      split at style
      · cases style
      · split at style <;> cases style

theorem single_of_styleOf {text : String} (style : styleOf text = .single) :
    needsEscape text.toList = false ∧ '\n' ∉ text.toList ∧
      hasPair isBreak (· = ' ') text.toList = false := by
  simp only [styleOf] at style
  split at style
  · cases style
  next noEscape =>
    split at style
    · split at style <;> cases style
    next line =>
      split at style
      · cases style
      next =>
        split at style
        · cases style
        next breakSpace =>
          exact ⟨Bool.not_eq_true _ ▸ noEscape, by simpa using line,
            Bool.not_eq_true _ ▸ breakSpace⟩

/-- A text is written in a form that it fits. -/
theorem writes_text (text : String) (indented : ∀ c ∈ text.toList, isBreak c = true → 0 < indent) :
    Writes indent text.toList (styleOf text = .plain) (writeText indent text) := by
  rw [writeText]
  cases style : styleOf text with
  | plain => exact .plain (isPlainText_of_styleOf style).1
  | double => exact .quoted (enquotes_double text.toList)
  | literal =>
      obtain ⟨noEscape, long⟩ := literal_of_styleOf style
      exact .literal (fitsLiteral_of_needsEscape noEscape long) long
  | single =>
      obtain ⟨noEscape, line, breakSpace⟩ := single_of_styleOf style
      exact .quoted (enquotes_single text.toList
        (fitsSingle_of_needsEscape noEscape line breakSpace indented))

theorem isPlainText_of_mem_words {word : String} (member : word ∈ ["null", "true", "false"]) :
    IsPlainText word.toList := by
  have words : ∀ word ∈ ["null", "true", "false"], word.toList ≠ [] ∧
      (∀ c ∈ word.toList, isPrintable c = true) ∧ fitsPlain word.toList = true := by decide
  obtain ⟨inhabited, printable, fits⟩ := words word member
  exact ⟨inhabited, printable, fits⟩

theorem isPlainText_writeNumber (value : Number) : IsPlainText (writeNumber value) := by
  cases value with
  | whole value =>
      obtain ⟨digit, rest, signed, -⟩ := exists_isSigned_intDigits value
      exact isPlainText_of_isSigned signed
  | float value =>
      rw [writeNumber]
      split
      next finite =>
        obtain ⟨digit, rest, signed, -⟩ := exists_isSigned_finite numberLayout value
        exact isPlainText_of_isSigned signed
      next => exact isPlainText_of_mem_words (by simp)

end Forms

section Characters

variable {indent : Nat} {text : List Char} {c : Char}

theorem isBreak_of_mem_escape (c : Char) : ∀ d ∈ escape c, isBreak d = false := by
  by_cases space : c = ' '
  · subst space
    decide
  · exact (quotes_double space).line

theorem eq_of_mem_doubled {d : Char} (member : d ∈ doubled c) : d = c := by
  rw [doubled] at member
  split at member
  next quote => simpa [quote] using member
  next => exact List.mem_singleton.mp member

theorem length_doubled_le (c : Char) : (doubled c).length ≤ 2 := by
  rw [doubled]
  split <;> simp

/-- The characters that need eight digits are printable. -/
theorem length_escape_le (c : Char) : (escape c).length ≤ 6 := by
  rw [escape]
  split
  · simp
  next =>
    split
    · simp
    next notPrintable =>
      have small : c.toNat < 0x10000 := by
        simp only [isPrintable, Bool.or_eq_true, decide_eq_true_eq] at notPrintable
        omega
      rw [escapeCode, if_pos small]
      split <;> simp [length_hexDigits]

theorem length_flatMap_le {encode : Char → List Char} {width : Nat}
    (short : ∀ c, (encode c).length ≤ width) (text : List Char) :
    (text.flatMap encode).length ≤ text.length * width := by
  rw [List.length_flatMap]
  refine (List.sum_le_card_nsmul _ width ?_).trans_eq (by simp)
  intro count member
  obtain ⟨c, -, rfl⟩ := List.mem_map.mp member
  exact short c

theorem mem_flatMap_of_forall {encode : Char → List Char} {kind : Char → Bool} {value : Bool}
    (all : ∀ c ∈ text, ∀ d ∈ encode c, kind d = value) :
    ∀ d ∈ text.flatMap encode, kind d = value := by
  intro d member
  obtain ⟨c, inText, inside⟩ := List.mem_flatMap.mp member
  exact all c inText d inside

/-- A text on one line is written on one line, and it does not get much longer. -/
theorem writeText_of_line {text : String} (line : ∀ c ∈ text.toList, isBreak c = false) :
    (∀ c ∈ writeText indent text, isBreak c = false) ∧
      (writeText indent text).length ≤ text.toList.length * 6 + 2 := by
  rw [writeText]
  cases style : styleOf text with
  | plain => exact ⟨line, by simp only; omega⟩
  | literal => exact absurd (line '\n' (literal_of_styleOf style).2) (by decide)
  | double =>
      have short := length_flatMap_le length_escape_le text.toList
      have quoted := mem_flatMap_of_forall fun c (_ : c ∈ text.toList) => isBreak_of_mem_escape c
      refine ⟨List.forall_mem_cons.mpr ⟨rfl, List.forall_mem_append.mpr ⟨quoted, by decide⟩⟩, ?_⟩
      simpa [writeDouble] using short
  | single =>
      have short := length_flatMap_le length_doubled_le text.toList
      have quoted := mem_flatMap_of_forall fun c (member : c ∈ text.toList) d inside =>
        (congrArg isBreak (eq_of_mem_doubled inside)).trans (line c member)
      have written : writeSingle indent text.toList =
          '\'' :: (text.toList.flatMap doubled ++ ['\'']) := by
        have last : indentLines indent false ['\''] = ['\''] := rfl
        rw [← last, ← indentLines_of_line quoted]
        rfl
      simp only [written]
      refine ⟨List.forall_mem_cons.mpr ⟨rfl, List.forall_mem_append.mpr ⟨quoted, by decide⟩⟩, ?_⟩
      rw [List.length_cons, List.length_append, List.length_singleton]
      omega

theorem isAllowed_of_isPrintable (printable : isPrintable c = true) : isAllowed c = true := by
  simp only [isPrintable, isAllowed, Bool.or_eq_true, Bool.and_eq_true, decide_eq_true_eq] at *
  omega

theorem isAllowed_of_mem_hexDigits {count code : Nat} :
    ∀ d ∈ hexDigits count code, isAllowed d = true := by
  induction count generalizing code with
  | zero => simp [hexDigits]
  | succ count ih =>
      have digits : ∀ digit < 16, isAllowed digit.digitChar.toUpper = true := by decide
      rw [hexDigits, List.forall_mem_append, List.forall_mem_singleton]
      exact ⟨ih, digits _ (Nat.mod_lt code (by decide))⟩

theorem isAllowed_of_mem_escape (c : Char) : ∀ d ∈ escape c, isAllowed d = true := by
  rw [escape]
  split
  next letter found =>
    have allowed : isAllowed letter = true := by
      rw [escapeLetter?.eq_def] at found
      split at found <;> cases found <;> rfl
    exact List.forall_mem_cons.mpr ⟨rfl, List.forall_mem_singleton.mpr allowed⟩
  next =>
    split
    next printable => exact List.forall_mem_singleton.mpr (isAllowed_of_isPrintable printable)
    next =>
      refine List.forall_mem_cons.mpr ⟨rfl, ?_⟩
      rw [escapeCode]
      split
      · exact List.forall_mem_cons.mpr ⟨rfl, isAllowed_of_mem_hexDigits⟩
      · split
        · exact List.forall_mem_cons.mpr ⟨rfl, isAllowed_of_mem_hexDigits⟩
        · exact List.forall_mem_cons.mpr ⟨rfl, isAllowed_of_mem_hexDigits⟩

theorem isAllowed_of_mem_spaces {count : Nat} : ∀ d ∈ spaces count, isAllowed d = true :=
  fun _ member => List.eq_of_mem_replicate member ▸ rfl

theorem isAllowed_of_mem_indentLines {behindBreak : Bool} (all : ∀ d ∈ text, isAllowed d = true) :
    ∀ d ∈ indentLines indent behindBreak text, isAllowed d = true := by
  induction text generalizing behindBreak with
  | nil => simp [indentLines]
  | cons c text ih =>
      obtain ⟨first, others⟩ := List.forall_mem_cons.mp all
      rw [indentLines]
      split
      · exact List.forall_mem_cons.mpr ⟨first, ih others⟩
      · refine List.forall_mem_append.mpr ⟨?_, List.forall_mem_cons.mpr ⟨first, ih others⟩⟩
        cases behindBreak with
        | true => exact isAllowed_of_mem_spaces
        | false => simp

theorem isAllowed_of_mem_closeLine (all : ∀ d ∈ text, isAllowed d = true) :
    ∀ d ∈ closeLine text, isAllowed d = true := by
  rw [closeLine]
  split
  · exact all
  · exact List.forall_mem_append.mpr ⟨all, by decide⟩

/-- The characters of a form are allowed. -/
theorem isAllowed_of_mem_writeText (text : String) :
    ∀ d ∈ writeText indent text, isAllowed d = true := by
  have printed (noEscape : needsEscape text.toList = false) :
      ∀ d ∈ text.toList, isAllowed d = true := fun d member =>
    isAllowed_of_isPrintable ((needsEscape_eq_false noEscape).1 d member)
  rw [writeText]
  cases style : styleOf text with
  | plain => exact fun d member =>
      isAllowed_of_isPrintable ((isPlainText_of_styleOf style).1.printable d member)
  | double =>
      have quoted := mem_flatMap_of_forall fun c (_ : c ∈ text.toList) => isAllowed_of_mem_escape c
      exact List.forall_mem_cons.mpr ⟨rfl, List.forall_mem_append.mpr ⟨quoted, by decide⟩⟩
  | single =>
      have quoted : ∀ d ∈ text.toList.flatMap doubled, isAllowed d = true :=
        mem_flatMap_of_forall fun c member d inside =>
          eq_of_mem_doubled inside ▸ printed (single_of_styleOf style).1 c member
      exact List.forall_mem_cons.mpr ⟨rfl, isAllowed_of_mem_indentLines
        (List.forall_mem_append.mpr ⟨quoted, by decide⟩)⟩
  | literal =>
      have marks : (∀ d ∈ indentationMark text.toList, isAllowed d = true) ∧
          ∀ d ∈ chompingMark text.toList, isAllowed d = true := by
        rw [indentationMark, chompingMark.eq_def]
        refine ⟨by split <;> decide, ?_⟩
        split
        · decide
        · split <;> decide
        · split
          · decide
          · split <;> decide
      have lines :=
        @isAllowed_of_mem_indentLines indent _ true (printed (literal_of_styleOf style).1)
      exact List.forall_mem_append.mpr
        ⟨List.forall_mem_append.mpr ⟨List.forall_mem_cons.mpr ⟨rfl, marks.1⟩, marks.2⟩,
          List.forall_mem_cons.mpr ⟨rfl, lines⟩⟩

end Characters

end ApiAssembly.Yaml
