import ApiAssembly.Text.Search
import Mathlib.Data.List.TakeDrop
import Mathlib.Data.List.TakeWhile

/-!
# Marks in a text

The first place of a mark is a matter of the text up to there: what stands behind it may be
another text.  In the same way a text is cut at the first character of a kind, whatever comes
after it.
-/

namespace ApiAssembly.Text

section Marks

theorem after?_append_self (start rest : List Char) : after? start (start ++ rest) = some rest :=
  after?_eq_some_iff.mpr rfl

/-- Whether a text begins with a mark is a matter of its first characters. -/
theorem after?_append_eq_none {mark text : List Char} (long : mark.length ≤ text.length)
    {behind : List Char} (absent : after? mark (text ++ behind) = none) (other : List Char) :
    after? mark (text ++ other) = none := by
  rw [Option.eq_none_iff_forall_ne_some] at absent ⊢
  intro rest found
  have start : mark <+: text :=
    List.prefix_of_prefix_length_le ⟨rest, (after?_eq_some_iff.mp found).symm⟩
      (List.prefix_append text other) long
  obtain ⟨middle, rfl⟩ := start
  apply absent (middle ++ behind)
  rw [List.append_assoc]
  exact after?_append_self mark _

/-- A mark stands at the beginning of a text that begins with it. -/
theorem find?_append_self (mark rest : List Char) :
    find? mark (mark ++ rest) = some ([], rest) := by
  cases shape : mark ++ rest with
  | nil =>
      obtain ⟨rfl, rfl⟩ := List.append_eq_nil_iff.mp shape
      rfl
  | cons c text =>
      rw [find?, ← shape, after?_append_self]

/-- A mark is found where it was found, whatever stands behind it. -/
theorem find?_of_find? {mark text front behind : List Char}
    (found : find? mark text = some (front, behind)) (other : List Char) :
    find? mark (front ++ mark ++ other) = some (front, other) := by
  have whole := eq_of_find? found
  subst whole
  induction front with
  | nil => exact find?_append_self mark other
  | cons c front ih =>
      simp only [List.cons_append, find?] at found ⊢
      split at found
      · simp at found
      · rename_i absent
        obtain ⟨⟨start, rest⟩, inner, same⟩ := Option.map_eq_some_iff.mp found
        simp only [Prod.mk.injEq, List.cons.injEq, true_and] at same
        obtain ⟨rfl, rfl⟩ := same
        have long : mark.length ≤ (c :: (start ++ mark)).length := by
          simp only [List.length_cons, List.length_append]
          omega
        have stillAbsent := after?_append_eq_none long absent other
        rw [List.cons_append] at stillAbsent
        rw [stillAbsent, ih inner]
        rfl

/-- A mark is found unless it stands nowhere. -/
theorem find?_eq_none_iff {mark text : List Char} : find? mark text = none ↔ ¬mark <:+: text := by
  induction text with
  | nil =>
      rw [find?, Option.map_eq_none_iff, List.infix_nil, Option.eq_none_iff_forall_ne_some]
      simp [after?_eq_some_iff]
  | cons c rest ih =>
      rw [List.infix_cons_iff, find?]
      cases begins : after? mark (c :: rest) with
      | some behind =>
          have start : mark <+: c :: rest := ⟨behind, (after?_eq_some_iff.mp begins).symm⟩
          simp [start]
      | none =>
          have apart : ¬mark <+: c :: rest := by
            rintro ⟨behind, whole⟩
            rw [after?_eq_some_iff.mpr whole.symm] at begins
            cases begins
          simp [apart, ih]

/-- A mark that begins at a place inside a text is not in front of the place where it is found. -/
theorem length_le_of_find? {mark text front behind : List Char}
    (found : find? mark text = some (front, behind)) {other : List Char}
    (begins : other ++ mark <+: text) : front.length ≤ other.length := by
  induction text generalizing front other with
  | nil =>
      obtain ⟨rest, -, same⟩ := Option.map_eq_some_iff.mp found
      cases same
      exact Nat.zero_le _
  | cons c text ih =>
      rw [find?] at found
      split at found
      · cases found
        exact Nat.zero_le _
      next absent =>
        obtain ⟨⟨start, rest⟩, inner, same⟩ := Option.map_eq_some_iff.mp found
        cases same
        cases other with
        | nil =>
            obtain ⟨rest, whole⟩ := begins
            rw [List.nil_append] at whole
            rw [after?_eq_some_iff.mpr whole.symm] at absent
            cases absent
        | cons d other =>
            rw [List.cons_append, List.cons_prefix_cons] at begins
            exact Nat.succ_le_succ (ih inner begins.2)

/-- A mark is found at the first place where it stands. -/
theorem find?_eq_some_iff {mark text front behind : List Char} :
    find? mark text = some (front, behind) ↔ text = front ++ mark ++ behind ∧
      ∀ other, other ++ mark <+: text → front.length ≤ other.length := by
  constructor
  · intro found
    exact ⟨eq_of_find? found, fun other => length_le_of_find? found⟩
  · rintro ⟨whole, first⟩
    have start : front ++ mark <+: text := ⟨behind, whole.symm⟩
    cases found : find? mark text with
    | none =>
        refine absurd ?_ (find?_eq_none_iff.mp found)
        exact (List.suffix_append front mark).isInfix.trans start.isInfix
    | some cut =>
        obtain ⟨early, rest⟩ := cut
        have parts := eq_of_find? found
        have here : front.length = early.length :=
          Nat.le_antisymm (first early ⟨rest, parts.symm⟩) (length_le_of_find? found start)
        rw [whole, List.append_assoc, List.append_assoc] at parts
        obtain ⟨rfl, behindMark⟩ := List.append_inj parts here
        rw [List.append_cancel_left_eq] at behindMark
        rw [behindMark]

/-- A mark does not begin in one text and end in the next, if this one begins with a character
that occurs in the mark at most in front. -/
theorem after?_append_of_head? {mark text rest : List Char} {c : Char}
    (absent : after? mark (c :: text) = none) (outside : ∀ d ∈ rest.head?, d ∉ mark.tail) :
    after? mark (c :: text ++ rest) = none := by
  by_cases long : mark.length ≤ (c :: text).length
  · rw [← List.append_nil (c :: text)] at absent
    exact after?_append_eq_none long absent rest
  · rw [Option.eq_none_iff_forall_ne_some]
    intro behind found
    have whole := after?_eq_some_iff.mp found
    obtain ⟨further, rfl⟩ : c :: text <+: mark :=
      List.prefix_of_prefix_length_le ⟨rest, rfl⟩ ⟨behind, whole.symm⟩ (Nat.le_of_not_le long)
    cases further with
    | nil => simp at long
    | cons d further =>
        rw [List.append_assoc, List.append_cancel_left_eq] at whole
        rw [whole] at outside
        exact outside d rfl (by simp)

theorem find?_append_of_eq_none {mark text rest : List Char} (absent : find? mark text = none)
    (outside : ∀ c ∈ rest.head?, c ∉ mark.tail) :
    find? mark (text ++ rest) = (find? mark rest).map fun cut => (text ++ cut.1, cut.2) := by
  induction text with
  | nil => cases found : find? mark rest <;> simp [found]
  | cons c text ih =>
      rw [find?] at absent
      split at absent
      · cases absent
      next apart =>
        rw [List.cons_append, find?, ← List.cons_append, after?_append_of_head? apart outside,
          ih (Option.map_eq_none_iff.mp absent), Option.map_map]
        rfl

end Marks

section Characters

theorem dropWhile_eq_self {α : Type} {drops : α → Bool} {items : List α}
    (first : ∀ item ∈ items.head?, drops item = false) : items.dropWhile drops = items := by
  cases items with
  | nil => rfl
  | cons item items => rw [List.dropWhile_cons_of_neg (by simp [first item rfl])]

/-- A text whose characters go on is read up to where what follows does not. -/
theorem span_append {goesOn : Char → Bool} {text rest : List Char}
    (all : ∀ c ∈ text, goesOn c = true) (stops : ∀ c ∈ rest.head?, goesOn c = false) :
    (text ++ rest).span goesOn = (text, rest) := by
  have none : rest.takeWhile goesOn = [] := by
    cases rest with
    | nil => rfl
    | cons c rest => rw [List.takeWhile_cons_of_neg (by simp [stops c rfl])]
  rw [List.span_eq_takeWhile_dropWhile, List.dropWhile_append_of_pos all,
    dropWhile_eq_self stops, List.takeWhile_append_of_pos all, none, List.append_nil]

/-- What is read of a text goes on, and what is left of it does not. -/
theorem eq_of_span {goesOn : Char → Bool} {text front behind : List Char}
    (cut : text.span goesOn = (front, behind)) :
    text = front ++ behind ∧ (∀ c ∈ front, goesOn c = true) ∧
      ∀ c ∈ behind.head?, goesOn c = false := by
  rw [List.span_eq_takeWhile_dropWhile, Prod.mk.injEq] at cut
  obtain ⟨rfl, rfl⟩ := cut
  refine ⟨List.takeWhile_append_dropWhile.symm, fun c => List.mem_takeWhile_imp, ?_⟩
  intro c first
  have stops := List.head?_dropWhile_not goesOn text
  rwa [Option.mem_def.mp first] at stops

/-- A text that is not read to its end is read to the same place, whatever follows. -/
theorem span_append_of_ne_nil {goesOn : Char → Bool} {text front behind : List Char}
    (cut : text.span goesOn = (front, behind)) (left : behind ≠ []) (rest : List Char) :
    (text ++ rest).span goesOn = (front, behind ++ rest) := by
  obtain ⟨rfl, all, stops⟩ := eq_of_span cut
  rw [List.append_assoc]
  obtain ⟨c, behind, rfl⟩ := List.exists_cons_of_ne_nil left
  exact span_append all stops

theorem splitFirst_append {mark : Char} {front : List Char} (absent : mark ∉ front)
    (behind : List Char) :
    splitFirst mark (front ++ mark :: behind) = some (front, behind) := by
  have cut : (front ++ mark :: behind).span (· != mark) = (front, mark :: behind) := by
    apply span_append
    · intro c member
      simpa using fun same : c = mark => absent (same ▸ member)
    · intro c member
      obtain rfl := Option.some.inj member
      simp
  rw [splitFirst, cut]

theorem splitFirst_of_not_mem {mark : Char} {text : List Char} (absent : mark ∉ text) :
    splitFirst mark text = none := by
  have uncut : (text ++ []).span (· != mark) = (text, []) := by
    apply span_append
    · intro c member
      simpa using fun same : c = mark => absent (same ▸ member)
    · intro c member
      cases member
  rw [List.append_nil] at uncut
  rw [splitFirst, uncut]

/-- A text cut at a character is cut at the last place where it stands. -/
theorem eq_of_splitLast_eq_some {mark : Char} {text front behind : List Char}
    (cut : splitLast mark text = some (front, behind)) :
    text = front ++ mark :: behind ∧ mark ∉ behind := by
  rw [splitLast, List.span_eq_takeWhile_dropWhile] at cut
  have whole := @List.takeWhile_append_dropWhile _ (· != mark) text.reverse
  cases rest : text.reverse.dropWhile (· != mark) with
  | nil => simp [rest] at cut
  | cons c others =>
      have stops : c = mark := by
        have head := List.head_dropWhile_not (· != mark) (l := text.reverse) (by simp [rest])
        simpa [rest] using head
      rw [rest, stops] at whole
      simp only [rest, Option.some.injEq, Prod.mk.injEq] at cut
      obtain ⟨rfl, rfl⟩ := cut
      constructor
      · simpa using (congrArg List.reverse whole).symm
      · intro member
        simpa using List.mem_takeWhile_imp (List.mem_reverse.mp member)

theorem splitLast_append_cons {mark : Char} {behind : List Char} (absent : mark ∉ behind)
    (front : List Char) : splitLast mark (front ++ mark :: behind) = some (front, behind) := by
  have cut : (behind.reverse ++ mark :: front.reverse).span (· != mark) =
      (behind.reverse, mark :: front.reverse) := by
    apply span_append
    · intro c member
      simpa using fun same : c = mark => absent (same ▸ List.mem_reverse.mp member)
    · simp
  have turned : (front ++ mark :: behind).reverse = behind.reverse ++ mark :: front.reverse := by
    simp
  rw [splitLast, turned, cut]
  simp

theorem not_mem_of_splitLast_eq_none {mark : Char} {text : List Char}
    (uncut : splitLast mark text = none) : mark ∉ text := by
  rw [splitLast, List.span_eq_takeWhile_dropWhile] at uncut
  cases rest : text.reverse.dropWhile (· != mark) with
  | nil =>
      intro member
      simpa using List.dropWhile_eq_nil_iff.mp rest mark (List.mem_reverse.mpr member)
  | cons c others => simp [rest] at uncut

end Characters

end ApiAssembly.Text
