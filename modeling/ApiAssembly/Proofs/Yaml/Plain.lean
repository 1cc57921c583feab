import ApiAssembly.Proofs.Decimal.Shortest
import ApiAssembly.Yaml.Write

/-!
# The types of written scalars

Null, the booleans and the numbers are read back from their plain texts.  A number's text is
a numeral: a digit, perhaps behind a minus, and after it digits and the marks of numbers.
-/

namespace ApiAssembly.Yaml

open Decimal

section Numerals

/-- A character that may follow the first digit of a number. -/
def isNumeralPart (c : Char) : Bool :=
  c.isDigit || c = '.' || c = 'e' || c = '-' || c = '+'

/-- A text of the form of a number, sign apart. -/
structure IsNumeral (digit : Char) (rest : List Char) : Prop where
  isDigit : digit.isDigit = true
  parts : ∀ c ∈ rest, isNumeralPart c = true

variable {digit : Char} {rest : List Char}

theorem isNumeralPart_of_isDigit {c : Char} (digit : c.isDigit = true) :
    isNumeralPart c = true := by
  simp [isNumeralPart, digit]

theorem exists_isNumeral_natDigits (n : Nat) :
    ∃ digit rest, natDigits n = digit :: rest ∧ IsNumeral digit rest := by
  obtain ⟨digit, rest, shape⟩ := List.exists_cons_of_ne_nil (natDigits_ne_nil n)
  have all : ∀ c ∈ digit :: rest, c.isDigit = true :=
    fun c member => isDigit_of_mem_natDigits (shape ▸ member)
  exact ⟨digit, rest, shape, all digit List.mem_cons_self,
    fun c member => isNumeralPart_of_isDigit (all c (List.mem_cons_of_mem digit member))⟩

theorem isNumeralPart_of_mem_intDigits {n : Int} {c : Char} (member : c ∈ intDigits n) :
    isNumeralPart c = true := by
  rw [intDigits] at member
  split at member
  · rcases List.mem_cons.mp member with rfl | inDigits
    · rfl
    · exact isNumeralPart_of_isDigit (isDigit_of_mem_natDigits inDigits)
  · exact isNumeralPart_of_isDigit (isDigit_of_mem_natDigits member)

theorem isNumeralPart_of_mem_powerText {layout : Layout} {place : Int} {c : Char}
    (member : c ∈ layout.powerText place) : isNumeralPart c = true := by
  rw [Layout.powerText, List.mem_cons, List.mem_append] at member
  rcases member with rfl | inSign | inPlace
  · rfl
  · split at inSign
    · rw [List.mem_singleton.mp inSign]
      rfl
    · cases inSign
  · exact isNumeralPart_of_mem_intDigits inPlace

/-- The text of a decimal is a numeral with a point or an exponent. -/
theorem exists_isNumeral_scaled (layout : Layout) (decimal : Scaled) :
    ∃ digit rest, layout.scaled decimal = digit :: rest ∧ IsNumeral digit rest ∧
      ∃ c ∈ rest, c.isDigit = false := by
  obtain ⟨digit, more, shape, isDigit, parts⟩ := exists_isNumeral_natDigits decimal.digits
  have zeros (count : Nat) : ∀ c ∈ List.replicate count '0', isNumeralPart c = true :=
    fun _ member => List.eq_of_mem_replicate member ▸ rfl
  have power (place : Int) : ∀ c ∈ layout.powerText place, isNumeralPart c = true :=
    fun _ member => isNumeralPart_of_mem_powerText member
  have form := layout.laidOut_scaled decimal
  rw [shape] at form
  generalize layout.scaled decimal = text at form ⊢
  cases form with
  | @whole count =>
      refine ⟨digit, more ++ List.replicate count '0' ++ ['.', '0'], rfl, ⟨isDigit, ?_⟩, '.',
        by simp, rfl⟩
      simp only [List.forall_mem_append, List.forall_mem_cons]
      exact ⟨⟨parts, zeros _⟩, rfl, rfl, by simp⟩
  | @inside count =>
      refine ⟨digit, more.take count ++ '.' :: more.drop count, rfl, ⟨isDigit, ?_⟩, '.',
        by simp, rfl⟩
      simp only [List.forall_mem_append, List.forall_mem_cons]
      exact ⟨fun c member => parts c (List.mem_of_mem_take member), rfl,
        fun c member => parts c (List.mem_of_mem_drop member)⟩
  | behind =>
      refine ⟨'0', _, rfl, ⟨rfl, ?_⟩, '.', List.mem_cons_self, rfl⟩
      simp only [List.append_eq, List.forall_mem_append, List.forall_mem_cons]
      exact ⟨⟨rfl, zeros _⟩, isNumeralPart_of_isDigit isDigit, parts⟩
  | single =>
      refine ⟨digit, more ++ layout.powerText decimal.exponent, rfl, ⟨isDigit, ?_⟩, 'e',
        by simp [Layout.powerText], rfl⟩
      exact List.forall_mem_append.mpr ⟨parts, power _⟩
  | power =>
      refine ⟨digit, _, rfl, ⟨isDigit, ?_⟩, '.', List.mem_cons_self, rfl⟩
      exact List.forall_mem_cons.mpr ⟨rfl, List.forall_mem_append.mpr ⟨parts, power _⟩⟩

/-- What a text is behind the sign of a number. -/
def IsSigned (text : List Char) (negative : Bool) (digit : Char) (rest : List Char) : Prop :=
  text = (if negative then ['-'] else []) ++ digit :: rest ∧ IsNumeral digit rest

theorem exists_isSigned_intDigits (n : Int) :
    ∃ digit rest, IsSigned (intDigits n) (decide (n < 0)) digit rest ∧
      digit :: rest = natDigits n.natAbs := by
  obtain ⟨digit, rest, shape, numeral⟩ := exists_isNumeral_natDigits n.natAbs
  refine ⟨digit, rest, ⟨?_, numeral⟩, shape.symm⟩
  rw [intDigits, shape]
  split
  next below => simp [below]
  next above => simp [above]

theorem exists_isSigned_finite (layout : Layout) (x : Binary64) :
    ∃ digit rest, IsSigned (layout.finite x) x.isNegative digit rest ∧
      ∃ c ∈ rest, c.isDigit = false := by
  rw [Layout.finite]
  by_cases zero : x.isZero = true
  · rw [if_pos zero]
    exact ⟨'0', ['.', '0'], ⟨rfl, rfl, by decide⟩, '.', by simp, rfl⟩
  · obtain ⟨digit, rest, shape, numeral, mark⟩ := exists_isNumeral_scaled layout (shortest x.abs)
    rw [if_neg zero, shape]
    exact ⟨digit, rest, ⟨rfl, numeral⟩, mark⟩

end Numerals

section Classification

variable {negative : Bool} {digit : Char} {rest text : List Char}

theorem IsSigned.isEmpty (signed : IsSigned text negative digit rest) : text ≠ [] := by
  rw [signed.1]
  simp

theorem IsSigned.splitSign_eq (signed : IsSigned text negative digit rest) :
    splitSign text = (negative, digit :: rest) := by
  obtain ⟨rfl, isDigit, -⟩ := signed
  cases negative with
  | true => rfl
  | false => exact splitSign_of_isDigit isDigit rest

/-- A text with the form of a number is none of the given words. -/
theorem IsSigned.not_contains (signed : IsSigned text negative digit rest) {words : List String}
    (noNumbers : ∀ word ∈ words, ∀ c ∈ word.toList.head?, c.isDigit = false ∧ c ≠ '-') :
    words.contains (String.ofList text) = false := by
  rw [← Bool.not_eq_true, List.contains_iff_mem]
  intro member
  have noNumber := noNumbers _ member
  obtain ⟨rfl, isDigit, -⟩ := signed
  rw [String.toList_ofList] at noNumber
  cases negative with
  | true => exact (noNumber '-' rfl).2 rfl
  | false => exact Bool.false_ne_true ((noNumber digit rfl).1.symm.trans isDigit)

/-- A text with the form of a number is neither null nor a boolean. -/
theorem IsSigned.noWord (signed : IsSigned text negative digit rest) :
    ¬(String.ofList text = "" ∨ isNull (String.ofList text) = true) ∧
      bool? (String.ofList text) = none := by
  have notEmpty : String.ofList text ≠ "" := fun empty =>
    signed.isEmpty (by simpa using congrArg String.toList empty)
  have notNull : isNull (String.ofList text) = false := signed.not_contains (by simp)
  refine ⟨by simp [notEmpty, notNull], ?_⟩
  rw [bool?, signed.not_contains (by simp), signed.not_contains (by simp)]
  rfl

end Classification

section WholeNumbers

variable {digit : Char} {rest digits : List Char}

theorem hexDigit?_of_isDigit {c : Char} (digit : c.isDigit = true) :
    Json.hexDigit? c = some (c.toNat - '0'.toNat) ∧ c.toNat - '0'.toNat < 10 := by
  refine ⟨by rw [Json.hexDigit?, if_pos digit], ?_⟩
  have bounds := Char.isDigit_iff_toNat.mp digit
  have last : '9'.toNat = '0'.toNat + 9 := rfl
  omega

/-- A character that is no digit is none to the base ten. -/
theorem isDigit_of_hexDigit? {c : Char} {value : Nat} (found : Json.hexDigit? c = some value)
    (small : value < 10) : c.isDigit = true := by
  rw [Json.hexDigit?] at found
  split at found
  next isDigit => exact isDigit
  next =>
    split at found
    · cases found
      omega
    · split at found
      · cases found
        omega
      · cases found

theorem valueIn?_ten (inhabited : digits ≠ []) (all : ∀ c ∈ digits, c.isDigit = true) :
    valueIn? 10 digits = some (digitsValue digits) := by
  have fold (start : Nat) : digits.foldlM (fun total c => do
      let digit ← Json.hexDigit? c
      if digit < 10 then some (total * 10 + digit) else none) start =
        some (digits.foldl (fun total digit => 10 * total + (digit.toNat - '0'.toNat)) start) := by
    clear inhabited
    induction digits generalizing start with
    | nil => rfl
    | cons c digits ih =>
        obtain ⟨found, small⟩ := hexDigit?_of_isDigit (all c List.mem_cons_self)
        have later := ih (fun d member => all d (List.mem_cons_of_mem c member))
        simp only [List.foldlM_cons, found, Option.bind_eq_bind, Option.bind_some, small, if_true,
          List.foldl_cons, Nat.mul_comm start 10]
        exact later _
  rw [valueIn?, if_neg inhabited, fold]
  rfl

theorem valueIn?_ten_of_not_isDigit {c : Char} (member : c ∈ digits) (other : c.isDigit = false) :
    valueIn? 10 digits = none := by
  have fold (start : Nat) : digits.foldlM (fun total c => do
      let digit ← Json.hexDigit? c
      if digit < 10 then some (total * 10 + digit) else none) start = none := by
    induction digits generalizing start with
    | nil => cases member
    | cons first digits ih =>
        rw [List.foldlM_cons]
        cases found : Json.hexDigit? first with
        | none => rfl
        | some value =>
            rw [Option.bind_eq_bind, Option.bind_some]
            split
            next small =>
              rcases List.mem_cons.mp member with rfl | later
              · exact absurd (isDigit_of_hexDigit? found small) (by simp [other])
              · exact ih later _
            next => rfl
  rw [valueIn?, fold, ite_self]

/-- What follows the first digit of a number is no mark of a base. -/
theorem basedValue?_of_isNumeral (numeral : IsNumeral digit rest) :
    basedValue? (digit :: rest) = none := by
  have part (c : Char) (more : List Char) (same : rest = c :: more) : isNumeralPart c = true :=
    numeral.parts c (same ▸ List.mem_cons_self)
  rw [basedValue?.eq_def]
  split
  next same => exact absurd (part 'x' _ (List.cons.inj same).2) (by decide)
  next same => exact absurd (part 'o' _ (List.cons.inj same).2) (by decide)
  next same => exact absurd (part 'b' _ (List.cons.inj same).2) (by decide)
  next => rfl

theorem hasLeadingZero_of_isDigit (isDigit : digit.isDigit = true) (rest : List Char) :
    hasLeadingZero (digit :: rest) =
      (decide (digit = '0') && decide (rest ≠ []) && rest.all Char.isDigit) := by
  rw [hasLeadingZero, splitSign_of_isDigit isDigit]
  split
  next same =>
    cases same
    simp
  next other =>
    by_cases zero : digit = '0'
    · cases rest with
      | nil => simp
      | cons c more => exact absurd (zero ▸ rfl) (other c more)
    · simp [zero]

theorem hasLeadingZero_of_isSigned {text : List Char} {negative : Bool}
    (signed : IsSigned text negative digit rest) :
    hasLeadingZero text = hasLeadingZero (digit :: rest) := by
  rw [hasLeadingZero, hasLeadingZero, signed.splitSign_eq, splitSign_of_isDigit signed.2.isDigit]

theorem natural?_natDigits (n : Nat) : natural? (natDigits n) = some n := by
  obtain ⟨digit, rest, shape, numeral⟩ := exists_isNumeral_natDigits n
  have noZero : hasLeadingZero (natDigits n) = false := by
    by_cases zero : n = 0
    · rw [zero]
      rfl
    · have first := head?_natDigits zero
      rw [shape, List.head?_cons, ne_eq, Option.some.injEq] at first
      rw [shape, hasLeadingZero_of_isDigit numeral.isDigit, decide_eq_false first]
      rfl
  have value := valueIn?_ten (natDigits_ne_nil n) fun c member => isDigit_of_mem_natDigits member
  rw [natural?, noZero, if_neg Bool.false_ne_true, value, digitsValue_natDigits, shape,
    basedValue?_of_isNumeral numeral, Option.none_or]

theorem whole?_of_isSigned {text : List Char} {negative : Bool}
    (signed : IsSigned text negative digit rest) :
    whole? text = (natural? (digit :: rest)).map fun value : Nat =>
      if negative then -(value : Int) else (value : Int) := by
  obtain ⟨rfl, isDigit, -⟩ := signed
  cases negative with
  | true =>
      rw [if_pos rfl, List.singleton_append, whole?]
      cases natural? (digit :: rest) <;> rfl
  | false =>
      rw [if_neg Bool.false_ne_true, List.nil_append, whole?.eq_def]
      split
      next same => cases same; exact absurd isDigit (by decide)
      next same => cases same; exact absurd isDigit (by decide)
      next => cases natural? (digit :: rest) <;> rfl

/-- The digits of a whole number in the range of words are read as the number. -/
theorem plainOf_intDigits {value : Int} (least : -0x8000000000000000 ≤ value)
    (greatest : value ≤ 0xFFFFFFFFFFFFFFFF) :
    plainOf (String.ofList (intDigits value)) = .whole value := by
  obtain ⟨digit, rest, signed, digits⟩ := exists_isSigned_intDigits value
  have signedSize : (if decide (value < 0) = true then -(value.natAbs : Int) else value.natAbs) =
      value := by
    simp only [decide_eq_true_eq]
    split <;> omega
  have whole : whole? (intDigits value) = some value := by
    rw [whole?_of_isSigned signed, digits, natural?_natDigits, Option.map_some, signedSize]
  obtain ⟨noWord, noBool⟩ := signed.noWord
  rw [plainOf, if_neg noWord, noBool, String.toList_ofList, whole, Option.bind_some, classify,
    if_pos ⟨least, greatest⟩]

end WholeNumbers

/-- The text of a finite number is read as the number. -/
theorem plainOf_finite (layout : Layout) {x : Binary64} (finite : x.isFinite = true) :
    plainOf (String.ofList (layout.finite x)) = .float x := by
  obtain ⟨digit, rest, signed, mark, member, noDigit⟩ := exists_isSigned_finite layout x
  have notAll : rest.all Char.isDigit = false :=
    List.all_eq_false.mpr ⟨mark, member, by simp [noDigit]⟩
  have noZero : hasLeadingZero (layout.finite x) = false := by
    rw [hasLeadingZero_of_isSigned signed, hasLeadingZero_of_isDigit signed.2.isDigit, notAll,
      Bool.and_false]
  have notWhole : whole? (layout.finite x) = none := by
    have value := valueIn?_ten_of_not_isDigit (List.mem_cons_of_mem digit member) noDigit
    rw [whole?_of_isSigned signed, natural?, basedValue?_of_isNumeral signed.2, value, ite_self]
    rfl
  have float : float? (String.ofList (layout.finite x)) = some x := by
    have unsigned : IsSigned (digit :: rest) false digit rest := ⟨rfl, signed.2⟩
    have notInfinite : isInfinity (String.ofList (digit :: rest)) = false :=
      unsigned.not_contains (by simp)
    simp only [float?, String.toList_ofList, signed.splitSign_eq, notInfinite,
      signed.not_contains (by simp : ∀ word ∈ [".nan", ".NaN", ".NAN"], ∀ c ∈ word.toList.head?,
        c.isDigit = false ∧ c ≠ '-'), layout.readLiteral?_finite finite, finite, if_true,
      Bool.false_eq_true, if_false]
  obtain ⟨noWord, noBool⟩ := signed.noWord
  rw [plainOf, if_neg noWord, noBool, String.toList_ofList, notWhole]
  simp [noZero, float]

end ApiAssembly.Yaml
