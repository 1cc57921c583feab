import ApiAssembly.Proofs.Yaml.Cursor
import ApiAssembly.Yaml.Gap
import ApiAssembly.Yaml.Write
import Mathlib.Data.List.TakeWhile

/-!
# Gaps in written text

A text is a row of runs with gaps between them.  In written texts a gap is spaces, which are
kept, or breaks with an indentation behind them, which vanishes.
-/

namespace ApiAssembly.Yaml

section Induction

/-- Where a row of characters of one kind ends, a character of the other kind follows. -/
theorem head?_dropWhile {goesOn : Char → Bool} (text : List Char) :
    ∀ c ∈ (text.dropWhile goesOn).head?, goesOn c = false := by
  intro c member
  have stops := List.head?_dropWhile_not goesOn text
  rw [Option.mem_def.mp member] at stops
  exact stops

/-- Induction over the runs of a text and the gaps between them. -/
theorem induction_gaps {motive : List Char → Prop} (inGap : Char → Bool)
    (last : ∀ run, (∀ c ∈ run, inGap c = false) → motive run)
    (more : ∀ run gap rest, (∀ c ∈ run, inGap c = false) → gap ≠ [] →
      (∀ c ∈ gap, inGap c = true) → (∀ c ∈ rest.head?, inGap c = false) → motive rest →
      motive (run ++ (gap ++ rest))) (text : List Char) : motive text := by
  induction size : text.length using Nat.strongRecOn generalizing text with
  | ind size ih =>
      subst size
      have runs : ∀ c ∈ text.takeWhile (!inGap ·), inGap c = false := fun c member => by
        simpa using List.mem_takeWhile_imp member
      have whole := List.takeWhile_append_dropWhile (p := (!inGap ·)) (l := text)
      have stops := @head?_dropWhile (!inGap ·) text
      generalize text.takeWhile (!inGap ·) = run at runs whole
      generalize text.dropWhile (!inGap ·) = behind at whole stops
      subst whole
      cases behind with
      | nil => simpa using last run runs
      | cons c after =>
          have first : inGap c = true := by simpa using stops c rfl
          have gaps : ∀ d ∈ (c :: after).takeWhile inGap, inGap d = true :=
            fun d member => List.mem_takeWhile_imp member
          have inhabited : (c :: after).takeWhile inGap ≠ [] := by simp [first]
          have parts := List.takeWhile_append_dropWhile (p := inGap) (l := c :: after)
          have ends := @head?_dropWhile inGap (c :: after)
          generalize (c :: after).takeWhile inGap = gap at gaps inhabited parts
          generalize (c :: after).dropWhile inGap = rest at parts ends
          have shorter : rest.length < (run ++ (gap ++ rest)).length := by
            have positive := List.length_pos_iff.mpr inhabited
            rw [List.length_append, List.length_append]
            omega
          rw [← parts] at ih ⊢
          exact more run gap rest runs inhabited gaps ends (ih _ shorter rest rfl)

end Induction

/-- A gap without breaks is spaces. -/
theorem exists_eq_spaces {gap : List Char} (inhabited : gap ≠ []) (all : ∀ c ∈ gap, c = ' ') :
    ∃ count, gap = spaces (count + 1) := by
  obtain ⟨count, length⟩ := Nat.exists_eq_succ_of_ne_zero (List.length_pos_iff.mpr inhabited).ne'
  refine ⟨count, ?_⟩
  rw [spaces, ← Nat.succ_eq_add_one, ← length]
  exact List.eq_replicate_of_mem all

section Reading

variable {cursor : Cursor} {gap : Gap} {indentation : Option Int} {rest : List Char}

/-- What does not go on with a gap. -/
def EndsGap (text : List Char) : Prop :=
  ∀ c ∈ text.head?, isGap c = false

theorem isBreak_of_mem_spaces {count : Nat} : ∀ c ∈ spaces count, isBreak c = false :=
  fun _ member => List.eq_of_mem_replicate member ▸ rfl

theorem EndsGap.head?_ne (ends : EndsGap rest) {c : Char} (gap : isGap c = true) :
    rest.head? ≠ some c := fun first =>
  Bool.false_ne_true ((ends c first).symm.trans gap)

theorem EndsGap.noBreak (ends : EndsGap rest) : ∀ c ∈ rest.head?, isBreak c = false := by
  intro c member
  have noGap := ends c member
  rw [isGap, Bool.or_eq_false_iff] at noGap
  exact noGap.2

theorem EndsGap.append {front : List Char} (ends : EndsGap front) (inhabited : front ≠ [])
    (back : List Char) : EndsGap (front ++ back) := by
  obtain ⟨c, rest, rfl⟩ := List.exists_cons_of_ne_nil inhabited
  exact ends

theorem advance_spaces (cursor : Cursor) (count : Nat) :
    cursor.advance count = cursor.past (spaces count) := by
  have whole := Cursor.advance_length cursor (@isBreak_of_mem_spaces count)
  rwa [spaces, List.length_replicate] at whole

theorem Gap.read?_of_endsGap (ends : EndsGap cursor.rest) (fuel : Nat) :
    Gap.read? indentation fuel gap cursor = some (gap, cursor) := by
  cases fuel with
  | zero => rfl
  | succ fuel =>
      rw [Gap.read?]
      cases shape : cursor.rest with
      | nil => rfl
      | cons c rest =>
          have noGap : isGap c = false := ends c (by rw [shape]; rfl)
          rw [isGap, Bool.or_eq_false_iff] at noGap
          simp [noGap.1, noGap.2]

/-- Spaces in front of any break are kept. -/
theorem Gap.read?_spaces (unbroken : gap.broken = false) (count fuel : Nat)
    (here : cursor.rest = spaces count ++ rest) :
    Gap.read? indentation (fuel + count) gap cursor =
      Gap.read? indentation fuel { gap with blanks := gap.blanks ++ spaces count }
        (cursor.past (spaces count)) := by
  induction count generalizing cursor gap with
  | zero => simp [spaces]
  | succ count ih =>
      have shape : cursor.rest = ' ' :: (spaces count ++ rest) := here
      have next : (cursor.step ' ').rest = spaces count ++ rest := by
        rw [Cursor.step_rest, shape]
        rfl
      have move : cursor.advance 1 = cursor.step ' ' := Cursor.advance_one rfl
      rw [← Nat.add_assoc, Gap.read?, shape]
      simp only [isBlank, decide_true, Bool.true_or, if_true, unbroken, Bool.false_eq_true,
        if_false, move]
      rw [ih rfl next, List.append_assoc]
      rfl

/-- Spaces behind a break vanish. -/
theorem Gap.read?_indentation (broken : gap.broken = true) (count fuel : Nat)
    (here : cursor.rest = spaces count ++ rest) :
    Gap.read? indentation (fuel + count) gap cursor =
      Gap.read? indentation fuel gap (cursor.past (spaces count)) := by
  induction count generalizing cursor with
  | zero => simp [spaces]
  | succ count ih =>
      have shape : cursor.rest = ' ' :: (spaces count ++ rest) := here
      have next : (cursor.step ' ').rest = spaces count ++ rest := by
        rw [Cursor.step_rest, shape]
        rfl
      have move : cursor.advance 1 = cursor.step ' ' := Cursor.advance_one rfl
      rw [← Nat.add_assoc, Gap.read?, shape]
      simp only [isBlank, decide_true, Bool.true_or, if_true, broken, move]
      rw [if_neg (by simp), ih next]
      rfl

/-- Breaks behind the first one are kept. -/
theorem Gap.read?_breaks {breaks : List Char} (broken : gap.broken = true) (fuel : Nat)
    (all : ∀ c ∈ breaks, isPlainBreak c = true) (here : cursor.rest = breaks ++ rest) :
    Gap.read? indentation (fuel + breaks.length) gap cursor =
      Gap.read? indentation fuel { gap with more := gap.more ++ breaks }
        (cursor.past breaks) := by
  induction breaks generalizing cursor gap with
  | nil => simp
  | cons c breaks ih =>
      have first := all c List.mem_cons_self
      have isBreak := Cursor.isBreak_of_isPlainBreak first
      have notBlank : isBlank c = false := by
        simp only [isPlainBreak, Bool.or_eq_true, decide_eq_true_eq] at first
        rcases first with (rfl | rfl) | rfl <;> rfl
      have next : (cursor.step c).rest = breaks ++ rest := by
        rw [Cursor.step_rest, here]
        rfl
      rw [List.length_cons, ← Nat.add_assoc, Gap.read?, here]
      simp only [List.cons_append, notBlank, Bool.false_eq_true, if_false, isBreak, if_true,
        broken, Cursor.takeBreak_eq first here]
      rw [ih rfl (fun d member => all d (List.mem_cons_of_mem c member)) next,
        List.append_assoc]
      rfl

/-- The first break of a gap. -/
theorem Gap.read?_break {c : Char} (unbroken : gap.broken = false) (fuel : Nat)
    (isBreak : isPlainBreak c = true) (here : cursor.rest = c :: rest) :
    Gap.read? indentation (fuel + 1) gap cursor =
      Gap.read? indentation fuel { broken := true, first := [c] } (cursor.step c) := by
  have notBlank : isBlank c = false := by
    simp only [isPlainBreak, Bool.or_eq_true, decide_eq_true_eq] at isBreak
    rcases isBreak with (rfl | rfl) | rfl <;> rfl
  rw [Gap.read?, here]
  simp only [notBlank, Bool.false_eq_true, if_false, Cursor.isBreak_of_isPlainBreak isBreak,
    if_true, unbroken, Cursor.takeBreak_eq isBreak here]

end Reading

end ApiAssembly.Yaml
