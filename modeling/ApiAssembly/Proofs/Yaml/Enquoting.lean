import ApiAssembly.Proofs.Yaml.Lines
import ApiAssembly.Proofs.Yaml.Quoted
import Mathlib.Data.List.Chain

/-!
# Writing quoted text

Every text can be written within double quotes.  Single quotes hold a text whose gaps are each
of one kind, spaces or separators of lines.
-/

namespace ApiAssembly.Yaml

section Written

variable {text rest : List Char} {indent : Nat}

theorem flatMap_escape_spaces (count : Nat) : (spaces count).flatMap escape = spaces count := by
  induction count with
  | zero => rfl
  | succ count ih =>
      rw [spaces, List.replicate_succ, List.flatMap_cons, ← spaces, ih]
      rfl

/-- Every text is read back from within double quotes. -/
theorem enquotes_double (text : List Char) :
    Enquotes false escape text (text.flatMap escape ++ ['"']) := by
  have quotes {run : List Char} (noSpace : ∀ c ∈ run, decide (c = ' ') = false) :
      ∀ c ∈ run, Quotes false c (escape c) :=
    fun c member => quotes_double (of_decide_eq_false (noSpace c member))
  induction text using induction_gaps (· = ' ') with
  | last run noSpace => exact .last (quotes noSpace)
  | more run gap rest noSpace inhabited blank restEnds ih =>
      obtain ⟨count, rfl⟩ := exists_eq_spaces inhabited fun c member => by
        simpa using blank c member
      have ends : EndsGap (rest.flatMap escape ++ ['"']) := by
        cases rest with
        | nil => simp [EndsGap, isGap, isBlank, isBreak]
        | cons c rest =>
            obtain ⟨d, more, shape, noGap⟩ :=
              (quotes_double (of_decide_eq_false (restEnds c rfl))).starts
            rw [List.flatMap_cons, shape]
            intro e member
            cases member
            exact noGap
      rw [List.flatMap_append, List.flatMap_append, flatMap_escape_spaces, List.append_assoc,
        List.append_assoc]
      exact .spaces (quotes noSpace) count ends ih

theorem hasPair_eq_false_iff {first second : Char → Bool} {text : List Char} :
    hasPair first second text = false ↔
      text.IsChain fun c d => first c = true → second d = false := by
  induction text with
  | nil => simp [hasPair]
  | cons c rest ih =>
      rw [hasPair, Bool.or_eq_false_iff, ih]
      cases rest with
      | nil => simp
      | cons d rest =>
          rw [List.isChain_cons_cons]
          cases first c <;> simp

/-- A written character within single quotes. -/
def doubled (c : Char) : List Char :=
  if c = '\'' then ['\'', '\''] else [c]

theorem quotes_doubled {c : Char} (noGap : isGap c = false) : Quotes true c (doubled c) := by
  rw [doubled]
  split
  next quote => exact quote ▸ quotes_quote
  next noQuote => exact quotes_single noGap noQuote

/-- A text that single quotes can hold, with an indentation where it has breaks. -/
structure FitsSingle (indent : Nat) (text : List Char) : Prop where
  gaps : ∀ c ∈ text, isGap c = true → c = ' ' ∨ isSeparator c = true
  spaceBreak : hasPair (· = ' ') isBreak text = false
  breakSpace : hasPair isBreak (· = ' ') text = false
  indented : ∀ c ∈ text, isBreak c = true → 0 < indent

theorem FitsSingle.part {front middle back : List Char}
    (fits : FitsSingle indent (front ++ (middle ++ back))) : FitsSingle indent middle where
  gaps c member := fits.gaps c (List.mem_append_right _ (List.mem_append_left _ member))
  spaceBreak := hasPair_eq_false_iff.mpr
    ((hasPair_eq_false_iff.mp fits.spaceBreak).right_of_append.left_of_append)
  breakSpace := hasPair_eq_false_iff.mpr
    ((hasPair_eq_false_iff.mp fits.breakSpace).right_of_append.left_of_append)
  indented c member := fits.indented c (List.mem_append_right _ (List.mem_append_left _ member))

theorem isBreak_of_isSeparator {c : Char} (separator : isSeparator c = true) : isBreak c = true :=
  Cursor.isBreak_of_isPlainBreak (isPlainBreak_of_isSeparator separator)

/-- A gap that single quotes can hold is of one kind. -/
theorem FitsSingle.cases {gap : List Char} (fits : FitsSingle indent gap)
    (isGap : ∀ c ∈ gap, isGap c = true) :
    (∀ c ∈ gap, c = ' ') ∨ ∀ c ∈ gap, isSeparator c = true := by
  induction gap with
  | nil => exact .inl (by simp)
  | cons c gap ih =>
      have later := ih (@FitsSingle.part indent [c] gap [] (by simpa using fits))
        fun d member => isGap d (List.mem_cons_of_mem c member)
      have first := fits.gaps c List.mem_cons_self (isGap c List.mem_cons_self)
      cases gap with
      | nil => simpa using first
      | cons d gap =>
          have spaceBreak := (List.isChain_cons_cons.mp (hasPair_eq_false_iff.mp fits.spaceBreak)).1
          have breakSpace := (List.isChain_cons_cons.mp (hasPair_eq_false_iff.mp fits.breakSpace)).1
          rcases first with space | separator
          · refine later.imp (fun all => List.forall_mem_cons.mpr ⟨space, all⟩) fun all => ?_
            have isBreak := isBreak_of_isSeparator (all d List.mem_cons_self)
            exact absurd (spaceBreak (decide_eq_true space)) (by simp [isBreak])
          · refine later.imp (fun all => ?_) fun all => List.forall_mem_cons.mpr ⟨separator, all⟩
            have noSpace := breakSpace (isBreak_of_isSeparator separator)
            exact absurd (all d List.mem_cons_self) (of_decide_eq_false noSpace)

theorem flatMap_doubled_of_isGap {gap : List Char} (isGap : ∀ c ∈ gap, isGap c = true) :
    gap.flatMap doubled = gap := by
  induction gap with
  | nil => rfl
  | cons c gap ih =>
      have noQuote : c ≠ '\'' := by
        rintro rfl
        exact absurd (isGap '\'' List.mem_cons_self) (by decide)
      rw [List.flatMap_cons, ih fun d member => isGap d (List.mem_cons_of_mem c member), doubled,
        if_neg noQuote]
      rfl

/-- A text that fits is read back from within single quotes. -/
theorem enquotes_single (text : List Char) (fits : FitsSingle indent text) :
    Enquotes true doubled text (indentLines indent false (text.flatMap doubled ++ ['\''])) := by
  induction text using induction_gaps isGap with
  | last run noGap =>
      have quotes : ∀ c ∈ run, Quotes true c (doubled c) :=
        fun c member => quotes_doubled (noGap c member)
      rw [indentLines_of_line (isBreak_of_mem_flatMap quotes)]
      exact .last quotes
  | more run gap rest noGap inhabited gaps restEnds ih =>
      have quotes : ∀ c ∈ run, Quotes true c (doubled c) :=
        fun c member => quotes_doubled (noGap c member)
      have later := ih (@FitsSingle.part indent (run ++ gap) rest [] (by simpa using fits))
      have ends : ∃ c more, rest.flatMap doubled ++ ['\''] = c :: more ∧ isBreak c = false ∧
          EndsGap (indentLines indent false (c :: more)) := by
        have starts : ∃ c more, rest.flatMap doubled ++ ['\''] = c :: more ∧ isGap c = false := by
          cases rest with
          | nil => exact ⟨_, _, rfl, rfl⟩
          | cons d rest =>
              obtain ⟨c, more, shape, noGap⟩ := (quotes_doubled (restEnds d rfl)).starts
              exact ⟨c, _, by rw [List.flatMap_cons, shape]; rfl, noGap⟩
        obtain ⟨c, more, shape, noGap⟩ := starts
        have line := noGap
        rw [isGap, Bool.or_eq_false_iff] at line
        refine ⟨c, more, shape, line.2, ?_⟩
        intro d member
        rw [indentLines, line.2] at member
        cases member
        exact noGap
      rw [List.flatMap_append, List.flatMap_append, flatMap_doubled_of_isGap gaps,
        List.append_assoc, List.append_assoc, indentLines_of_line (isBreak_of_mem_flatMap quotes)]
      obtain ⟨c, more, shape, line, ends⟩ := ends
      rw [shape] at later ⊢
      rcases fits.part.cases gaps with spaces | separators
      · obtain ⟨count, rfl⟩ := exists_eq_spaces inhabited spaces
        rw [indentLines_of_line isBreak_of_mem_spaces]
        exact .spaces quotes count ends later
      · obtain ⟨first, breaks, rfl⟩ := List.exists_cons_of_ne_nil inhabited
        have positive := fits.indented first (by simp)
          (isBreak_of_isSeparator (separators first List.mem_cons_self))
        rw [indentLines_of_breaks (by simp) fun d member =>
          isBreak_of_isSeparator (separators d member), indentLines_behindBreak line]
        exact .breaks quotes separators positive ends later

end Written

end ApiAssembly.Yaml
