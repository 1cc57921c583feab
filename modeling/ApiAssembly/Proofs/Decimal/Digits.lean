import ApiAssembly.Decimal.Literal
import ApiAssembly.Decimal.Shortest
import ApiAssembly.Proofs.Text.Search
import Mathlib.Tactic.Ring

/-!
# Decimal digits and literals

The digits of a natural number have the number as their value.  A literal is read part by
part: its sign, the digits in front of the point and behind it, and its exponent.
-/

namespace ApiAssembly.Decimal

section Digits

theorem digitsValue_eq (digits : List Char) : digitsValue digits = Nat.ofDigitChars 10 digits 0 :=
  Nat.ofDigitChars_eq_foldl.symm

theorem digitsValue_append (front back : List Char) :
    digitsValue (front ++ back) = 10 ^ back.length * digitsValue front + digitsValue back := by
  have later (start : Nat) : back.foldl (fun total digit => 10 * total +
      (digit.toNat - '0'.toNat)) start = Nat.ofDigitChars 10 back start :=
    Nat.ofDigitChars_eq_foldl.symm
  rw [digitsValue, List.foldl_append, later, Nat.ofDigitChars_eq_ofDigitChars_zero,
    digitsValue_eq back]
  rfl

@[simp]
theorem digitsValue_natDigits (n : Nat) : digitsValue (natDigits n) = n := by
  rw [digitsValue_eq, natDigits, Nat.ofDigitChars_ten_toDigits]

@[simp]
theorem digitsValue_zeros (count : Nat) : digitsValue (List.replicate count '0') = 0 := by
  rw [digitsValue_eq, Nat.ofDigitChars_replicate_zero, Nat.mul_zero]

theorem isDigit_of_mem_natDigits {n : Nat} {c : Char} (member : c ∈ natDigits n) :
    c.isDigit = true :=
  Nat.isDigit_of_mem_toDigits (by decide) (by decide) member

theorem natDigits_ne_nil (n : Nat) : natDigits n ≠ [] :=
  Nat.toDigits_ne_nil

theorem length_natDigits_le_iff {n count : Nat} (positive : 0 < count) :
    (natDigits n).length ≤ count ↔ n < 10 ^ count :=
  Nat.length_toDigits_le_iff (by decide) positive

/-- A number other than zero has no leading zero. -/
theorem head?_natDigits {n : Nat} (nonzero : n ≠ 0) : (natDigits n).head? ≠ some '0' := by
  induction n using Nat.strongRecOn with
  | ind n ih =>
      rw [natDigits, Nat.toDigits_eq_if (by decide)]
      split
      next small =>
        intro zero
        exact nonzero (Nat.digitChar_eq_zero.mp (Option.some.inj zero))
      next large =>
        have front := ih (n / 10) (by omega) (by omega)
        have inhabited := natDigits_ne_nil (n / 10)
        rw [natDigits] at front inhabited
        rwa [List.head?_append, List.head?_eq_some_head inhabited, Option.some_or,
          ← List.head?_eq_some_head inhabited]

theorem natDigits_ten_mul {n : Nat} (nonzero : n ≠ 0) : natDigits (10 * n) = natDigits n ++ ['0'] :=
  (Nat.toDigits_append_toDigits (by decide) (Nat.pos_iff_ne_zero.mpr nonzero)
    (by decide : 0 < 10)).symm

theorem length_natDigits_mul_pow {n : Nat} (nonzero : n ≠ 0) (count : Nat) :
    (natDigits (n * 10 ^ count)).length = (natDigits n).length + count := by
  induction count with
  | zero => simp
  | succ count ih =>
      have factor : n * 10 ^ (count + 1) = 10 * (n * 10 ^ count) := by ring
      have scaled : n * 10 ^ count ≠ 0 := Nat.mul_ne_zero nonzero (Nat.pow_pos (by decide)).ne'
      rw [factor, natDigits_ten_mul scaled, List.length_append, ih]
      rfl

end Digits

section Literals

variable {whole fraction tail : List Char} {exponent : Int}

theorem span_digits {digits rest : List Char} (all : ∀ c ∈ digits, c.isDigit = true)
    (ends : ∀ c ∈ rest.head?, c.isDigit = false) :
    (digits ++ rest).span Char.isDigit = (digits, rest) :=
  Text.span_append all ends

/-- A text that begins with a digit has no sign. -/
theorem splitSign_of_isDigit {c : Char} (digit : c.isDigit = true) (rest : List Char) :
    splitSign (c :: rest) = (false, c :: rest) := by
  rw [splitSign.eq_def]
  split
  next same => cases same; exact absurd digit (by decide)
  next same => cases same; exact absurd digit (by decide)
  next => rfl

/-- A text is a sign, or none, and what is read behind it; it is also if the text goes on. -/
theorem exists_of_splitSign {text after : List Char} {negative : Bool}
    (signed : splitSign text = (negative, after)) :
    ∃ sign, text = sign ++ after ∧ (∀ c ∈ sign, c = '-' ∨ c = '+') ∧
      (after ≠ [] → ∀ more, splitSign (text ++ more) = (negative, after ++ more)) := by
  rw [splitSign.eq_def] at signed
  split at signed
  · cases signed
    exact ⟨['-'], rfl, by decide, fun _ _ => rfl⟩
  · cases signed
    exact ⟨['+'], rfl, by decide, fun _ _ => rfl⟩
  next noMinus noPlus =>
    cases signed
    refine ⟨[], rfl, List.forall_mem_nil _, fun left more => ?_⟩
    obtain ⟨c, text, rfl⟩ := List.exists_cons_of_ne_nil left
    rw [splitSign.eq_def]
    split
    next same =>
      cases same
      exact absurd rfl (noMinus text)
    next same =>
      cases same
      exact absurd rfl (noPlus text)
    · rfl

/-- What stands behind the digits of a literal: an exponent, or nothing. -/
structure IsTail (tail : List Char) (exponent : Int) : Prop where
  noDigit : ∀ c ∈ tail.head?, c.isDigit = false
  noPoint : tail.head? ≠ some '.'
  read : readExponent? tail = some exponent

theorem isTail_nil : IsTail [] 0 := ⟨by simp, by simp, rfl⟩

/-- A literal with a point. -/
theorem readLiteral?_point (negative : Bool) (inhabited : whole ≠ [])
    (wholeDigits : ∀ c ∈ whole, c.isDigit = true)
    (fractionDigits : ∀ c ∈ fraction, c.isDigit = true) (isTail : IsTail tail exponent) :
    readLiteral? ((if negative then ['-'] else []) ++ (whole ++ '.' :: (fraction ++ tail))) =
      some (.ofDecimal negative (digitsValue (whole ++ fraction))
        (exponent - fraction.length)) := by
  have sign : splitSign ((if negative then ['-'] else []) ++
      (whole ++ '.' :: (fraction ++ tail))) = (negative, whole ++ '.' :: (fraction ++ tail)) := by
    cases negative with
    | true => rfl
    | false =>
        obtain ⟨c, rest, rfl⟩ := List.exists_cons_of_ne_nil inhabited
        exact splitSign_of_isDigit (wholeDigits c List.mem_cons_self) _
  have first : (whole ++ '.' :: (fraction ++ tail)).span Char.isDigit =
      (whole, '.' :: (fraction ++ tail)) := by
    apply span_digits wholeDigits
    intro c member
    cases member
    decide
  rw [readLiteral?, sign]
  simp only [first, splitFraction, span_digits fractionDigits isTail.noDigit, isTail.read,
    if_neg fun empty : whole = [] ∧ fraction = [] => inhabited empty.1, Option.map_some]

/-- A literal without a point. -/
theorem readLiteral?_noPoint (negative : Bool) (inhabited : whole ≠ [])
    (wholeDigits : ∀ c ∈ whole, c.isDigit = true) (isTail : IsTail tail exponent) :
    readLiteral? ((if negative then ['-'] else []) ++ (whole ++ tail)) =
      some (.ofDecimal negative (digitsValue whole) exponent) := by
  have sign : splitSign ((if negative then ['-'] else []) ++ (whole ++ tail)) =
      (negative, whole ++ tail) := by
    cases negative with
    | true => rfl
    | false =>
        obtain ⟨c, rest, rfl⟩ := List.exists_cons_of_ne_nil inhabited
        exact splitSign_of_isDigit (wholeDigits c List.mem_cons_self) _
  have noFraction : splitFraction tail = ([], tail) := by
    have noPoint := isTail.noPoint
    rw [splitFraction.eq_def]
    split
    next => exact absurd rfl noPoint
    next => rfl
  rw [readLiteral?, sign]
  simp only [span_digits wholeDigits isTail.noDigit, noFraction, isTail.read, Option.map_some,
    List.append_nil, List.length_nil, inhabited, false_and, if_false, Nat.cast_zero,
    Int.sub_zero]

end Literals

end ApiAssembly.Decimal
