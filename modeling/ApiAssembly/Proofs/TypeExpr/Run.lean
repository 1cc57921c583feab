import ApiAssembly.Proofs.TypeExpr.Character

/-!
# Runs of characters

Words and numbers both go on as long as each character continues the run, which depends on
the character in front and on the one behind.  The character behind matters only where it
continues the run itself, so a run read from a text is one on its own, and it stays one in
front of every text that does not go on with it.
-/

namespace ApiAssembly.TypeExpr

/-- The characters of a text that continue a run, and what follows, for a test of the
character in front, a character and the character behind. -/
def runWhile (continues : Char → Char → Option Char → Bool) (previous : Char) :
    List Char → List Char × List Char
  | [] => ([], [])
  | c :: rest =>
    if continues previous c rest.head? then
      let (run, after) := runWhile continues c rest
      (c :: run, after)
    else ([], c :: rest)

/-- A test of the character behind that only lets through what continues the run too. -/
structure LooksAhead (continues : Char → Char → Option Char → Bool) : Prop where
  mono : ∀ {previous c : Char} (next : Option Char),
    continues previous c none = true → continues previous c next = true
  next_continues : ∀ {previous c : Char} {next : Option Char},
    continues previous c next = true → continues previous c none = true ∨
      ∃ d, next = some d ∧ ∀ behind, continues c d behind = true

section Runs

variable {continues : Char → Char → Option Char → Bool} {previous : Char}
  {text run after : List Char}

/-- What continues a run at the end of a text also does so if the text goes on. -/
theorem LooksAhead.head?_append (looks : LooksAhead continues) {c : Char} {rest : List Char}
    (first : continues previous c rest.head? = true) (after : List Char) :
    continues previous c (rest ++ after).head? = true := by
  cases rest with
  | nil => exact looks.mono _ first
  | cons next more => exact first

theorem runWhile_cons_alone_iff {c : Char} {rest : List Char} :
    runWhile continues previous (c :: rest) = (c :: rest, []) ↔
      continues previous c rest.head? = true ∧ runWhile continues c rest = (rest, []) := by
  rw [runWhile]
  split
  next first => simp [first, Prod.ext_iff]
  next stops => simp [stops]

/-- A run on its own is a run in front of every text that does not go on with it. -/
theorem runWhile_append (looks : LooksAhead continues)
    (alone : runWhile continues previous text = (text, []))
    (ends : ∀ previous, runWhile continues previous after = ([], after)) :
    runWhile continues previous (text ++ after) = (text, after) := by
  induction text generalizing previous with
  | nil => exact ends previous
  | cons c rest ih =>
      obtain ⟨first, inner⟩ := runWhile_cons_alone_iff.mp alone
      rw [List.cons_append, runWhile, if_pos (looks.head?_append first after), ih inner]

/-- Whatever follows a run on its own, the run that is read begins with it. -/
theorem prefix_of_runWhile_alone (looks : LooksAhead continues)
    (alone : runWhile continues previous text = (text, [])) (after : List Char) :
    text <+: (runWhile continues previous (text ++ after)).1 := by
  induction text generalizing previous with
  | nil => exact List.nil_prefix
  | cons c rest ih =>
      obtain ⟨first, inner⟩ := runWhile_cons_alone_iff.mp alone
      rw [List.cons_append, runWhile, if_pos (looks.head?_append first after)]
      exact List.cons_prefix_cons.mpr ⟨rfl, ih inner⟩

/-- What is read as a run is one on its own. -/
theorem runWhile_alone (looks : LooksAhead continues)
    (read : runWhile continues previous text = (run, after)) :
    runWhile continues previous run = (run, []) ∧ text = run ++ after := by
  induction text generalizing previous run with
  | nil =>
      cases read
      exact ⟨rfl, rfl⟩
  | cons c rest ih =>
      rw [runWhile] at read
      split at read
      next first =>
        obtain ⟨inner, behind, same⟩ :
            ∃ inner behind, runWhile continues c rest = (inner, behind) := ⟨_, _, rfl⟩
        rw [same] at read
        cases read
        obtain ⟨alone, whole⟩ := ih same
        refine ⟨?_, by rw [whole, List.cons_append]⟩
        rw [runWhile, if_pos, alone]
        rcases looks.next_continues first with unseen | ⟨d, seen, goes⟩
        · exact looks.mono _ unseen
        · -- The character behind belongs to the run, so the run alone shows it too.
          cases rest with
          | nil => cases seen
          | cons next more =>
              cases seen
              rw [runWhile, if_pos (goes _)] at same
              cases same
              exact first
      next stops =>
        cases read
        exact ⟨rfl, rfl⟩

end Runs

/-- The test of `wordRun`. -/
def continuesWord (_previous c : Char) (next : Option Char) : Bool :=
  isWordPart c || (c = '.' && next.any isWordStart)

/-- The test of `numberRun`. -/
def continuesNumber (previous c : Char) (next : Option Char) : Bool :=
  c.isDigit || c = 'e' || c = 'E'
    || ((c = '-' || c = '+') && (previous = 'e' || previous = 'E'))
    || (c = '.' && next.any Char.isDigit)

theorem wordRun_eq_runWhile (previous : Char) (text : List Char) :
    wordRun text = runWhile continuesWord previous text := by
  induction text generalizing previous with
  | nil => rfl
  | cons c rest ih => rw [wordRun, runWhile, continuesWord, ih c]

theorem numberRun_eq_runWhile (previous : Char) (text : List Char) :
    numberRun previous text = runWhile continuesNumber previous text := by
  induction text generalizing previous with
  | nil => rfl
  | cons c rest ih => rw [numberRun, runWhile, continuesNumber, ih c]

theorem looksAhead_continuesWord : LooksAhead continuesWord where
  mono next first := by
    simp only [continuesWord, Option.any_none, Bool.and_false, Bool.or_false] at first
    simp [continuesWord, first]
  next_continues := by
    intro previous c next first
    rw [continuesWord, Bool.or_eq_true] at first
    rcases first with part | dot
    · exact Or.inl (by simp [continuesWord, part])
    · rw [Bool.and_eq_true, Option.any_eq_true] at dot
      obtain ⟨-, d, seen, start⟩ := dot
      refine Or.inr ⟨d, seen, fun behind => ?_⟩
      simp [continuesWord, isWordPart_of_isWordStart start]

theorem looksAhead_continuesNumber : LooksAhead continuesNumber where
  mono next first := by
    simp only [continuesNumber, Option.any_none, Bool.and_false, Bool.or_false] at first
    simp [continuesNumber, first]
  next_continues := by
    intro previous c next first
    rw [continuesNumber, Bool.or_eq_true] at first
    rcases first with digits | dot
    · exact Or.inl (by simp only [continuesNumber, digits, Bool.true_or])
    · rw [Bool.and_eq_true, Option.any_eq_true] at dot
      obtain ⟨-, d, seen, digit⟩ := dot
      refine Or.inr ⟨d, seen, fun behind => ?_⟩
      simp [continuesNumber, digit]

theorem numberRun_cons_alone_iff {previous c : Char} {rest : List Char} :
    numberRun previous (c :: rest) = (c :: rest, []) ↔
      continuesNumber previous c rest.head? = true ∧ numberRun c rest = (rest, []) := by
  rw [numberRun_eq_runWhile, numberRun_eq_runWhile]
  exact runWhile_cons_alone_iff

/-- What is read as a run of a number is one on its own. -/
theorem numberRun_alone {previous : Char} {text run after : List Char}
    (read : numberRun previous text = (run, after)) :
    numberRun previous run = (run, []) ∧ text = run ++ after := by
  rw [numberRun_eq_runWhile] at read ⊢
  exact runWhile_alone looksAhead_continuesNumber read

theorem wordRun_cons_of_isDelimiter {c : Char} (delimiter : isDelimiter c = true)
    (rest : List Char) : wordRun (c :: rest) = ([], c :: rest) := by
  simp only [isDelimiter, Bool.and_eq_true, Bool.not_eq_true', decide_eq_true_eq] at delimiter
  rw [wordRun, if_neg (by simp [delimiter])]

theorem numberRun_cons_of_isDelimiter {c : Char} (delimiter : isDelimiter c = true)
    (previous : Char) (rest : List Char) :
    numberRun previous (c :: rest) = ([], c :: rest) := by
  simp only [isDelimiter, Bool.and_eq_true, Bool.not_eq_true', decide_eq_true_eq] at delimiter
  obtain ⟨⟨⟨notPart, notDot⟩, notMinus⟩, notPlus⟩ := delimiter
  have notDigit : c.isDigit = false := by
    cases digit : c.isDigit with
    | false => rfl
    | true => rw [isWordPart_of_isDigit digit] at notPart; cases notPart
  have notExponent : c ≠ 'e' ∧ c ≠ 'E' := by
    constructor
    · rintro rfl
      revert notPart
      decide
    · rintro rfl
      revert notPart
      decide
  rw [numberRun, if_neg (by simp [notDigit, notExponent, notDot, notMinus, notPlus])]

end ApiAssembly.TypeExpr
