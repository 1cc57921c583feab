import ApiAssembly.Json.Reader
import ApiAssembly.Json.Writer
import ApiAssembly.Proofs.Decimal.Shortest
import ApiAssembly.Proofs.Value.Extent

/-!
# Texts of numbers

A JSON number is read part by part: the digits in front of the point, those behind it, and the
exponent.  The text of a number is read up to its end, whatever follows that is no part of a
number.  A whole number of 64 bits is read back as itself.  A floating-point number need not
be, since its text is read in two roundings.
-/

namespace ApiAssembly.Json

open Decimal (Binary64 Layout Scaled intDigits natDigits natDigits_ne_nil
  isDigit_of_mem_natDigits span_digits splitSign)

variable {text whole fraction rest after : List Char} {exponent : Option Int} {number : Number}
  {negative : Bool}

section Marks

/-- The digits behind a point, with the point if there are any. -/
def pointed (fraction : List Char) : List Char :=
  if fraction = [] then [] else '.' :: fraction

/-- The characters of a number's text. -/
def isNumberPart (c : Char) : Bool :=
  c.isDigit || c = '.' || c = 'e' || c = 'E' || c = '-' || c = '+'

theorem isNumberPart_of_isDigit {c : Char} (digit : c.isDigit = true) : isNumberPart c = true := by
  simp [isNumberPart, digit]

theorem splitFraction?_eq_some_iff : splitFraction? text = some (fraction, after) ↔
    text = pointed fraction ++ after ∧ (∀ c ∈ fraction, c.isDigit = true) ∧
      ∀ c ∈ after.head?, if fraction = [] then c ≠ '.' else c.isDigit = false := by
  constructor
  · intro point
    rw [splitFraction?.eq_def] at point
    split at point
    next text =>
      split at point
      · cases point
      next split inhabited =>
        have cut : text.span Char.isDigit = (fraction, after) := Option.some.inj point
        obtain ⟨rfl, all, stops⟩ := Text.eq_of_span cut
        have some : fraction ≠ [] := by
          rintro rfl
          exact inhabited _ cut
        simp only [pointed, if_neg some]
        exact ⟨rfl, all, stops⟩
    next noPoint =>
      cases point
      refine ⟨rfl, List.forall_mem_nil _, ?_⟩
      rintro c first rfl
      obtain ⟨more, shape⟩ := List.head?_eq_some_iff.mp first
      exact noPoint more shape
  · rintro ⟨rfl, all, stops⟩
    rw [pointed]
    split at stops
    next none =>
      subst none
      rw [if_pos rfl, List.nil_append, splitFraction?.eq_def]
      split
      next => exact absurd rfl (stops '.' rfl)
      next => rfl
    next some =>
      have cut : (fraction ++ after).span Char.isDigit = (fraction, after) :=
        Text.span_append all stops
      rw [if_neg some, List.cons_append, splitFraction?, cut]
      split
      next shape => cases shape; exact absurd rfl some
      next => rfl

theorem exists_of_splitExponent? (power : splitExponent? text = some (exponent, after)) :
    ∃ front, text = front ++ after ∧ (∀ c ∈ front, isNumberPart c = true) ∧
      (after ≠ [] → ∀ more, splitExponent? (text ++ more) = some (exponent, after ++ more)) := by
  cases text with
  | nil =>
      cases power
      exact ⟨[], rfl, List.forall_mem_nil _, fun left => absurd rfl left⟩
  | cons mark text =>
      simp only [List.cons_append]
      rw [splitExponent?] at power
      split at power
      next marked =>
        cases signed : splitSign text with
        | mk negative unsigned =>
          simp only [signed] at power
          split at power
          · cases power
          next digits behind inhabited cut =>
            cases power
            obtain ⟨sign, rfl, signs, signedMore⟩ := Decimal.exists_of_splitSign signed
            obtain ⟨rfl, all, stops⟩ := Text.eq_of_span cut
            refine ⟨mark :: (sign ++ digits), ?_, ?_, ?_⟩
            · rw [List.cons_append, List.append_assoc]
            · rw [List.forall_mem_cons, List.forall_mem_append]
              refine ⟨?_, ?_, fun c member => isNumberPart_of_isDigit (all c member)⟩
              · rcases marked with rfl | rfl <;> rfl
              · intro c member
                rcases signs c member with rfl | rfl <;> rfl
            · intro left more
              rw [splitExponent?, if_pos marked,
                signedMore (List.append_ne_nil_of_right_ne_nil _ left)]
              simp only [Text.span_append_of_ne_nil cut left]
      next unmarked =>
        cases power
        refine ⟨[], rfl, List.forall_mem_nil _, fun _ more => ?_⟩
        rw [splitExponent?, if_neg unmarked]
        rfl

end Marks

section Parts

/-- The number with the given digits in front of the point and behind it and with the given
exponent. -/
def numberOf? (negative : Bool) (whole fraction : List Char) (exponent : Option Int) :
    Option Number :=
  if fraction = [] ∧ exponent = none then wholeOf? negative whole
  else
    let (gathered, wholeLeft) := gather 0 whole
    let (significand, fractionLeft) := gather gathered fraction
    let places : Int := (wholeLeft : Int) - (fraction.length - fractionLeft : Nat)
    floatOf? negative significand (places + exponent.getD 0)

/-- The parts at the front of a text that begins with a number, sign apart, and what follows
the number. -/
inductive NumberParts (text whole fraction : List Char) (exponent : Option Int)
    (rest : List Char) : Prop where
  | intro {afterWhole afterFraction : List Char}
      (cut : text.span Char.isDigit = (whole, afterWhole)) (inhabited : whole ≠ [])
      (single : whole.head? = some '0' → whole.length = 1)
      (point : splitFraction? afterWhole = some (fraction, afterFraction))
      (power : splitExponent? afterFraction = some (exponent, rest))

theorem NumberParts.readUnsigned?_eq (parts : NumberParts text whole fraction exponent rest)
    (negative : Bool) :
    readUnsigned? negative text =
      (numberOf? negative whole fraction exponent).map fun number => (number, rest) := by
  obtain ⟨cut, inhabited, single, point, power⟩ := parts
  have wellFormed : ¬(whole = [] ∨ whole.head? = some '0' ∧ whole.length ≠ 1) := by
    rintro (empty | ⟨zero, long⟩)
    · exact inhabited empty
    · exact long (single zero)
  rw [readUnsigned?, cut]
  simp only [if_neg wellFormed, point, power, Option.bind_eq_bind, Option.bind_some, numberOf?]
  split
  · rw [Option.map_eq_bind]
    rfl
  · rw [Option.map_eq_bind]
    rfl

theorem exists_parts_of_readUnsigned? (found : readUnsigned? negative text = some (number, rest)) :
    ∃ whole fraction exponent, NumberParts text whole fraction exponent rest ∧
      numberOf? negative whole fraction exponent = some number := by
  have parts : ∃ whole fraction exponent, NumberParts text whole fraction exponent rest := by
    simp only [readUnsigned?] at found
    split at found
    · cases found
    next wellFormed =>
      obtain ⟨⟨fraction, afterFraction⟩, point, found⟩ := Option.bind_eq_some_iff.mp found
      obtain ⟨⟨exponent, after⟩, power, found⟩ := Option.bind_eq_some_iff.mp found
      have same : after = rest := by
        split at found
        · obtain ⟨whole, -, same⟩ := Option.bind_eq_some_iff.mp found
          cases same
          rfl
        · obtain ⟨float, -, same⟩ := Option.bind_eq_some_iff.mp found
          cases same
          rfl
      rw [not_or, not_and, not_not] at wellFormed
      subst same
      exact ⟨_, fraction, exponent, .intro rfl wellFormed.1 wellFormed.2 point power⟩
  obtain ⟨whole, fraction, exponent, parts⟩ := parts
  rw [parts.readUnsigned?_eq] at found
  obtain ⟨read, value, same⟩ := Option.map_eq_some_iff.mp found
  cases same
  exact ⟨whole, fraction, exponent, parts, value⟩

/-- A number begins with a digit, sign apart. -/
theorem NumberParts.exists_digit (parts : NumberParts text whole fraction exponent rest) :
    ∃ digit more, text = digit :: more ∧ digit.isDigit = true := by
  obtain ⟨cut, inhabited, -, -, -⟩ := parts
  obtain ⟨digit, others, rfl⟩ := List.exists_cons_of_ne_nil inhabited
  obtain ⟨rfl, all, -⟩ := Text.eq_of_span cut
  exact ⟨digit, others ++ _, rfl, all digit List.mem_cons_self⟩

/-- A number is read to the same place, whatever follows, unless it ends with the text. -/
theorem NumberParts.append (parts : NumberParts text whole fraction exponent rest)
    (left : rest ≠ []) (more : List Char) :
    NumberParts (text ++ more) whole fraction exponent (rest ++ more) := by
  obtain ⟨cut, inhabited, single, point, power⟩ := parts
  obtain ⟨tail, rfl, -, powerMore⟩ := exists_of_splitExponent? power
  have pointLeft := List.append_ne_nil_of_right_ne_nil tail left
  obtain ⟨rfl, digits, stops⟩ := splitFraction?_eq_some_iff.mp point
  have wholeLeft := List.append_ne_nil_of_right_ne_nil (pointed fraction) pointLeft
  refine .intro (Text.span_append_of_ne_nil cut wholeLeft more) inhabited single ?_
    (powerMore left more)
  rw [List.append_assoc]
  refine splitFraction?_eq_some_iff.mpr ⟨rfl, digits, ?_⟩
  rwa [List.head?_append_of_ne_nil _ pointLeft]

/-- The text of a number is what it is read from. -/
theorem NumberParts.exists_front (parts : NumberParts text whole fraction exponent rest) :
    ∃ front, text = front ++ rest ∧ ∀ c ∈ front, isNumberPart c = true := by
  obtain ⟨cut, -, -, point, power⟩ := parts
  obtain ⟨tail, rfl, tailParts, -⟩ := exists_of_splitExponent? power
  obtain ⟨rfl, digits, -⟩ := splitFraction?_eq_some_iff.mp point
  obtain ⟨rfl, all, -⟩ := Text.eq_of_span cut
  have part (c : Char) (digit : c.isDigit = true) := isNumberPart_of_isDigit digit
  refine ⟨whole ++ (pointed fraction ++ tail), by simp only [List.append_assoc], ?_⟩
  rw [List.forall_mem_append, List.forall_mem_append]
  refine ⟨fun c member => part c (all c member), ?_, tailParts⟩
  intro c member
  rw [pointed] at member
  split at member
  · cases member
  · rcases List.mem_cons.mp member with rfl | inFraction
    · rfl
    · exact part c (digits c inFraction)

theorem NumberParts.readNumber?_eq (parts : NumberParts text whole fraction exponent rest)
    (negative : Bool) :
    readNumber? ((if negative then ['-'] else []) ++ text) =
      (numberOf? negative whole fraction exponent).map fun number => (number, rest) := by
  cases negative with
  | true => exact parts.readUnsigned?_eq true
  | false =>
      obtain ⟨digit, more, rfl, isDigit⟩ := parts.exists_digit
      have noSign : readNumber? (digit :: more) = readUnsigned? false (digit :: more) := by
        rw [readNumber?.eq_def]
        split
        next same =>
          cases same
          exact absurd isDigit (by decide)
        next => rfl
      exact noSign.trans (parts.readUnsigned?_eq false)

end Parts

section Texts

/-- A text that does not go on with a number in front of it. -/
def EndsNumber (text : List Char) : Prop :=
  ∀ c ∈ text.head?, c.isDigit = false ∧ c ≠ '.' ∧ c ≠ 'e' ∧ c ≠ 'E'

theorem endsNumber_nil : EndsNumber [] := by
  simp [EndsNumber]

/-- The exponent of a text, or nothing. -/
structure IsPower (text : List Char) (exponent : Option Int) : Prop where
  first : ∀ c ∈ text.head?, c = 'e'
  read : ∀ rest, EndsNumber rest → splitExponent? (text ++ rest) = some (exponent, rest)

theorem isPower_nil : IsPower [] none where
  first := by simp
  read rest ends := by
    cases rest with
    | nil => rfl
    | cons c rest =>
        obtain ⟨-, -, small, capital⟩ := ends c rfl
        exact if_neg fun either => either.elim small capital

theorem isPower_exponent (plus : Bool) (first : Int) :
    IsPower ('e' :: ((if plus = true ∧ 0 ≤ first then ['+'] else []) ++ intDigits first))
      (some first) where
  first := by simp
  read rest ends := by
    have digits : (natDigits first.natAbs ++ rest).span Char.isDigit =
        (natDigits first.natAbs, rest) :=
      span_digits (fun _ member => isDigit_of_mem_natDigits member) fun c member =>
        (ends c member).1
    have signed {sign : List Char} {negative : Bool}
        (cut : splitSign (sign ++ (natDigits first.natAbs ++ rest)) =
          (negative, natDigits first.natAbs ++ rest)) :
        splitExponent? ('e' :: (sign ++ (natDigits first.natAbs ++ rest))) =
          some (some (if negative then -(first.natAbs : Int) else first.natAbs), rest) := by
      rw [splitExponent?, if_pos (Or.inl rfl), cut]
      simp only [digits]
      split
      next empty => exact absurd (congrArg Prod.fst empty) (natDigits_ne_nil _)
      next same =>
        cases same
        rw [Decimal.digitsValue_natDigits]
    by_cases below : first < 0
    · have value : -(first.natAbs : Int) = first := by omega
      have read := @signed ['-'] true rfl
      rw [if_pos rfl, value] at read
      rw [if_neg fun both => Int.not_lt.mpr both.2 below, intDigits, if_pos below]
      exact read
    · have value : (first.natAbs : Int) = first := by omega
      have unsigned : splitSign ([] ++ (natDigits first.natAbs ++ rest)) =
          (false, natDigits first.natAbs ++ rest) := by
        obtain ⟨c, more, shape⟩ := List.exists_cons_of_ne_nil (natDigits_ne_nil first.natAbs)
        rw [shape]
        exact Decimal.splitSign_of_isDigit
          (isDigit_of_mem_natDigits (shape ▸ List.mem_cons_self)) _
      rw [intDigits, if_neg below]
      split
      · have read := @signed ['+'] false rfl
        rw [if_neg Bool.false_ne_true, value] at read
        exact read
      · have read := signed unsigned
        rw [if_neg Bool.false_ne_true, value] at read
        exact read

/-- A text that has the same parts whatever follows it. -/
def IsUnsigned (text : List Char) : Prop :=
  ∃ whole fraction exponent, ∀ rest, EndsNumber rest →
    NumberParts (text ++ rest) whole fraction exponent rest

theorem numberParts_append {tail : List Char} (inhabited : whole ≠ [])
    (wholeDigits : ∀ c ∈ whole, c.isDigit = true)
    (single : whole.head? = some '0' → whole.length = 1)
    (fractionDigits : ∀ c ∈ fraction, c.isDigit = true) (power : IsPower tail exponent)
    (ends : EndsNumber rest) :
    NumberParts (whole ++ (pointed fraction ++ tail) ++ rest) whole fraction exponent rest := by
  have tailEnds : ∀ c ∈ (tail ++ rest).head?, c.isDigit = false ∧ c ≠ '.' := by
    intro c member
    cases tail with
    | nil => exact ⟨(ends c member).1, (ends c member).2.1⟩
    | cons first tail =>
        cases member
        rw [power.first c rfl]
        decide
  have point : splitFraction? (pointed fraction ++ (tail ++ rest)) =
      some (fraction, tail ++ rest) := by
    refine splitFraction?_eq_some_iff.mpr ⟨rfl, fractionDigits, fun c first => ?_⟩
    split
    · exact (tailEnds c first).2
    · exact (tailEnds c first).1
  refine .intro ?_ inhabited single point (power.read rest ends)
  rw [List.append_assoc, List.append_assoc]
  apply span_digits wholeDigits
  intro c member
  rw [pointed] at member
  split at member
  · exact (tailEnds c member).1
  · cases member
    rfl

theorem numberParts_natDigits (n : Nat) (ends : EndsNumber rest) :
    NumberParts (natDigits n ++ rest) (natDigits n) [] none rest := by
  have single : (natDigits n).head? = some '0' → (natDigits n).length = 1 := by
    intro zero
    have none : n = 0 := by
      by_contra nonzero
      exact Decimal.head?_natDigits nonzero zero
    rw [none]
    rfl
  have parts := numberParts_append (natDigits_ne_nil n)
    (fun _ member => isDigit_of_mem_natDigits member) single (List.forall_mem_nil _) isPower_nil
    ends
  rwa [pointed, if_pos rfl, List.append_nil, List.append_nil] at parts

theorem isUnsigned_pointed (whole fraction : List Char) {tail : List Char} (inhabited : whole ≠ [])
    (wholeDigits : ∀ c ∈ whole, c.isDigit = true)
    (single : whole.head? = some '0' → whole.length = 1)
    (fractionDigits : ∀ c ∈ fraction, c.isDigit = true) (power : IsPower tail exponent) :
    IsUnsigned (whole ++ (pointed fraction ++ tail)) :=
  ⟨whole, fraction, exponent, fun _ ends =>
    numberParts_append inhabited wholeDigits single fractionDigits power ends⟩

theorem isDigit_of_mem_zeros {count : Nat} {c : Char} (member : c ∈ List.replicate count '0') :
    c.isDigit = true :=
  List.eq_of_mem_replicate member ▸ rfl

section Digits

variable {digits tail : List Char} {exponent : Option Int}

/-- Digits with zeros behind them, as a whole number. -/
theorem isUnsigned_whole (all : ∀ c ∈ digits, c.isDigit = true) (inhabited : digits ≠ [])
    (first : digits.head? ≠ some '0') (zeros : Nat) :
    IsUnsigned (digits ++ List.replicate zeros '0' ++ ['.', '0']) := by
  have noZero : (digits ++ List.replicate zeros '0').head? ≠ some '0' := by
    rwa [List.head?_append_of_ne_nil _ inhabited]
  exact isUnsigned_pointed _ ['0'] (List.append_ne_nil_of_left_ne_nil inhabited _)
    (List.forall_mem_append.mpr ⟨all, fun _ => isDigit_of_mem_zeros⟩)
    (fun zero => absurd zero noZero) (by decide) isPower_nil

/-- Digits with a point among them. -/
theorem isUnsigned_split (all : ∀ c ∈ digits, c.isDigit = true) (inhabited : digits ≠ [])
    (first : digits.head? ≠ some '0') (count : Nat) (power : IsPower tail exponent) :
    IsUnsigned (digits.take (count + 1) ++ (pointed (digits.drop (count + 1)) ++ tail)) := by
  obtain ⟨c, others, rfl⟩ := List.exists_cons_of_ne_nil inhabited
  exact isUnsigned_pointed _ _ (List.cons_ne_nil _ _)
    (fun d member => all d (List.mem_of_mem_take member)) (fun zero => absurd zero first)
    (fun d member => all d (List.mem_of_mem_drop member)) power

/-- Digits behind a point and zeros. -/
theorem isUnsigned_small (all : ∀ c ∈ digits, c.isDigit = true) (inhabited : digits ≠ [])
    (zeros : Nat) : IsUnsigned ('0' :: '.' :: List.replicate zeros '0' ++ digits) := by
  have further : List.replicate zeros '0' ++ digits ≠ [] :=
    List.append_ne_nil_of_right_ne_nil _ inhabited
  have unsigned := isUnsigned_pointed ['0'] (List.replicate zeros '0' ++ digits)
    (List.cons_ne_nil _ _) (by decide) (fun _ => rfl)
    (List.forall_mem_append.mpr ⟨fun _ => isDigit_of_mem_zeros, all⟩) isPower_nil
  rwa [pointed, if_neg further, List.append_nil] at unsigned

end Digits

/-- The text of a decimal has its parts in every layout. -/
theorem isUnsigned_scaled (layout : Layout) {decimal : Scaled} (nonzero : decimal.digits ≠ 0) :
    IsUnsigned (layout.scaled decimal) := by
  have all : ∀ c ∈ natDigits decimal.digits, c.isDigit = true :=
    fun c member => isDigit_of_mem_natDigits member
  have inhabited := natDigits_ne_nil decimal.digits
  have first := Decimal.head?_natDigits nonzero
  have form := layout.laidOut_scaled decimal
  generalize layout.scaled decimal = text at form ⊢
  generalize natDigits decimal.digits = digits at all inhabited first form
  cases form with
  | whole => exact isUnsigned_whole all inhabited first _
  | @inside count few =>
      have further : digits.drop (count + 1) ≠ [] := by
        rw [ne_eq, List.drop_eq_nil_iff]
        omega
      have unsigned := isUnsigned_split all inhabited first count isPower_nil
      rwa [pointed, if_neg further, List.append_nil] at unsigned
  | behind => exact isUnsigned_small all inhabited _
  | single one =>
      have unsigned := isUnsigned_split all inhabited first 0
        (isPower_exponent layout.exponentPlus decimal.exponent)
      rwa [List.take_of_length_le one.le, List.drop_of_length_le one.le] at unsigned
  | power several =>
      have further : digits.drop 1 ≠ [] := by
        rw [ne_eq, List.drop_eq_nil_iff]
        omega
      have unsigned := isUnsigned_split all inhabited first 0
        (isPower_exponent layout.exponentPlus (digits.length + decimal.exponent - 1))
      rwa [pointed, if_neg further] at unsigned

/-- The text of a number that fits has its parts behind its sign. -/
theorem exists_isUnsigned_writeNumber (fits : number.Fits) :
    ∃ (negative : Bool) (text : List Char),
      writeNumber number = (if negative then ['-'] else []) ++ text ∧ IsUnsigned text := by
  cases number with
  | whole value =>
      refine ⟨decide (value < 0), natDigits value.natAbs, ?_, _, _, _,
        fun rest ends => numberParts_natDigits _ ends⟩
      rw [writeNumber, intDigits]
      by_cases below : value < 0 <;> simp [below]
  | float value =>
      have finite : value.isFinite = true := fits
      rw [writeNumber, if_pos finite, Layout.finite]
      by_cases zero : value.isZero = true
      · rw [if_pos zero]
        exact ⟨_, _, rfl, isUnsigned_pointed ['0'] ['0'] (List.cons_ne_nil _ _) (by decide)
          (fun _ => rfl) (by decide) isPower_nil⟩
      · rw [if_neg zero]
        rw [Bool.not_eq_true] at zero
        obtain ⟨-, nonzero⟩ := Decimal.toBinary64_shortest
          ((Decimal.isFinite_abs value).trans finite) ((Decimal.isZero_abs value).trans zero)
          (Decimal.isNegative_abs value)
        exact ⟨_, _, rfl, isUnsigned_scaled numberLayout nonzero⟩

/-- The number that the text of a number is read as. -/
def reread? (number : Number) : Option Number :=
  (readNumber? (writeNumber number)).map Prod.fst

theorem readNumber?_writeNumber (fits : number.Fits) (ends : EndsNumber rest) :
    readNumber? (writeNumber number ++ rest) =
      (reread? number).map fun found => (found, rest) := by
  obtain ⟨negative, text, shape, whole, fraction, exponent, parts⟩ :=
    exists_isUnsigned_writeNumber fits
  have here := (parts rest ends).readNumber?_eq negative
  have alone := (parts [] endsNumber_nil).readNumber?_eq negative
  rw [List.append_nil, ← shape] at alone
  rw [reread?, alone, shape, List.append_assoc, here, Option.map_map, Option.map_map]
  rfl

/-- A whole number of 64 bits is read back. -/
theorem reread?_whole {value : Int} (fits : (Number.whole value).Fits) :
    reread? (.whole value) = some (.whole value) := by
  obtain ⟨least, greatest⟩ := fits
  have parts := numberParts_natDigits value.natAbs endsNumber_nil
  have digits := Decimal.digitsValue_natDigits value.natAbs
  rw [List.append_nil] at parts
  rw [reread?, writeNumber, intDigits]
  by_cases below : value < 0
  · have negated : -(value.natAbs : Int) = value := by omega
    have small : value.natAbs ≤ largestNegated := by
      rw [largestNegated]
      omega
    have read : numberOf? true (natDigits value.natAbs) [] none = some (.whole value) := by
      rw [numberOf?, if_pos ⟨rfl, rfl⟩, wholeOf?, digits, if_pos rfl, if_neg (by omega),
        if_pos small, negated]
    have text := parts.readNumber?_eq true
    rw [read] at text
    rw [if_pos below]
    exact congrArg (Option.map Prod.fst) text
  · have same : (value.natAbs : Int) = value := by omega
    have small : value.natAbs ≤ largestWord := by
      rw [largestWord]
      omega
    have read : numberOf? false (natDigits value.natAbs) [] none = some (.whole value) := by
      rw [numberOf?, if_pos ⟨rfl, rfl⟩, wholeOf?, digits, if_neg Bool.false_ne_true, if_pos small,
        same]
    have text := parts.readNumber?_eq false
    rw [read] at text
    rw [if_neg below]
    exact congrArg (Option.map Prod.fst) text

end Texts

end ApiAssembly.Json
