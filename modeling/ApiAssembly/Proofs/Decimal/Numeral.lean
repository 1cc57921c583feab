import ApiAssembly.Proofs.Decimal.Digits

/-!
# Numerals

A numeral is written with a sign or none, digits, a point and digits behind it or neither, and
an exponent or none, which has a letter, a sign or none, and digits.  A decimal literal may have
its point at the end or in front; the literals that begin with a digit, sign apart, and have a
digit behind each point are just the numerals.
-/

namespace ApiAssembly.Decimal

/-- One or more decimal digits. -/
structure Digits where
  characters : List Char
  inhabited : characters ≠ []
  isDigit : ∀ c ∈ characters, c.isDigit = true

def Digits.ofNat (n : Nat) : Digits where
  characters := natDigits n
  inhabited := natDigits_ne_nil n
  isDigit _ member := isDigit_of_mem_natDigits member

/-- A sign, which may be left out. -/
inductive Sign where
  | absent
  | plus
  | minus

/-- An exponent, which is written with a small or a capital letter. -/
structure Power where
  capital : Bool
  sign : Sign
  digits : Digits

/-- A sign or none, digits, a point with digits behind it or nothing, and an exponent or
nothing. -/
structure Numeral where
  sign : Sign
  whole : Digits
  fraction : Option Digits
  power : Option Power

def Sign.characters : Sign → List Char
  | absent => []
  | plus => ['+']
  | minus => ['-']

def Sign.isNegative : Sign → Bool
  | minus => true
  | _ => false

def Power.characters (power : Power) : List Char :=
  (if power.capital then 'E' else 'e') :: (power.sign.characters ++ power.digits.characters)

def Power.exponent (power : Power) : Int :=
  if power.sign.isNegative then -(digitsValue power.digits.characters : Int)
  else digitsValue power.digits.characters

namespace Numeral

/-- What stands behind the digits in front of the point. -/
def behindWhole (numeral : Numeral) : List Char :=
  numeral.fraction.elim [] (fun digits => '.' :: digits.characters) ++
    numeral.power.elim [] Power.characters

def characters (numeral : Numeral) : List Char :=
  numeral.sign.characters ++ (numeral.whole.characters ++ numeral.behindWhole)

/-- The digits behind the point. -/
def places (numeral : Numeral) : List Char :=
  numeral.fraction.elim [] Digits.characters

/-- The nearest number to what a numeral denotes. -/
def value (numeral : Numeral) : Binary64 :=
  .ofDecimal numeral.sign.isNegative (digitsValue (numeral.whole.characters ++ numeral.places))
    (numeral.power.elim 0 Power.exponent - numeral.places.length)

end Numeral

/-- The text is a numeral. -/
def IsNumeral (text : List Char) : Prop :=
  ∃ numeral : Numeral, numeral.characters = text

/-- The text begins with a digit, sign apart. -/
def BeginsWithDigit (text : List Char) : Prop :=
  ∃ (sign : Sign) (digit : Char) (more : List Char),
    text = sign.characters ++ digit :: more ∧ digit.isDigit = true

/-- Behind each point of the text stands a digit. -/
def PointsBeforeDigits (text : List Char) : Prop :=
  ∀ front back, text = front ++ '.' :: back → back.head?.any Char.isDigit = true

variable {text unsigned : List Char} {negative : Bool} {exponent : Int} {value : Binary64}

section Signs

theorem splitSign_characters_append (sign : Sign) {digit : Char} (isDigit : digit.isDigit = true)
    (more : List Char) :
    splitSign (sign.characters ++ digit :: more) = (sign.isNegative, digit :: more) := by
  cases sign with
  | absent => exact splitSign_of_isDigit isDigit more
  | plus => rfl
  | minus => rfl

theorem exists_sign_of_splitSign (signed : splitSign text = (negative, unsigned)) :
    ∃ sign : Sign, text = sign.characters ++ unsigned ∧ sign.isNegative = negative := by
  rw [splitSign.eq_def] at signed
  split at signed
  · cases signed
    exact ⟨.minus, rfl, rfl⟩
  · cases signed
    exact ⟨.plus, rfl, rfl⟩
  · cases signed
    exact ⟨.absent, rfl, rfl⟩

/-- The text of a literal may have any sign that is read in the same way. -/
theorem readLiteral?_sign (sign : Sign) {digit : Char} (isDigit : digit.isDigit = true)
    (more : List Char) : readLiteral? (sign.characters ++ digit :: more) =
      readLiteral? ((if sign.isNegative then ['-'] else []) ++ digit :: more) := by
  cases sign with
  | absent => rfl
  | plus =>
      have unsigned := splitSign_of_isDigit isDigit more
      have signed := splitSign_characters_append .plus isDigit more
      simp only [Sign.isNegative, Bool.false_eq_true, if_false, List.nil_append] at signed ⊢
      rw [readLiteral?, readLiteral?, unsigned, signed]
  | minus => rfl

end Signs

section Powers

theorem Power.isTail (power : Power) : IsTail power.characters power.exponent := by
  have mark : ∀ {c}, power.characters.head? = some c → c = 'e' ∨ c = 'E' := by
    rintro c ⟨⟩
    cases power.capital with
    | true => exact .inr rfl
    | false => exact .inl rfl
  refine ⟨fun c first => ?_, fun point => ?_, ?_⟩
  · rcases mark first with rfl | rfl
    · rfl
    · rfl
  · rcases mark point with impossible | impossible
    · cases impossible
    · cases impossible
  · obtain ⟨digit, more, shape⟩ := List.exists_cons_of_ne_nil power.digits.inhabited
    have isDigit : digit.isDigit = true := power.digits.isDigit digit (by simp [shape])
    have signed := splitSign_characters_append power.sign isDigit more
    rw [← shape] at signed
    have all : power.digits.characters.all Char.isDigit = true :=
      List.all_eq_true.mpr power.digits.isDigit
    rw [Power.characters, readExponent?, signed]
    simp only [mark rfl, power.digits.inhabited, all, ne_eq, not_false_eq_true, and_self, if_true,
      Power.exponent]

theorem isTail_power (power : Option Power) :
    IsTail (power.elim [] Power.characters) (power.elim 0 Power.exponent) := by
  cases power with
  | none => exact isTail_nil
  | some power => exact power.isTail

/-- The exponent of a written number is read as the power of ten of the first digit. -/
theorem isTail_exponent (plus : Bool) (first : Int) :
    IsTail ('e' :: ((if plus = true ∧ 0 ≤ first then ['+'] else []) ++ intDigits first))
      first := by
  have written (sign : Sign)
      (value : (if sign.isNegative then -(first.natAbs : Int) else first.natAbs) = first) :
      IsTail ('e' :: (sign.characters ++ natDigits first.natAbs)) first := by
    have read := Power.isTail ⟨false, sign, .ofNat first.natAbs⟩
    rwa [Power.exponent, Digits.ofNat, digitsValue_natDigits, value] at read
  rw [intDigits]
  by_cases below : first < 0
  · have negated : -(first.natAbs : Int) = first := by omega
    rw [if_pos below, if_neg fun both => Int.not_lt.mpr both.2 below]
    exact written .minus negated
  · have size : (first.natAbs : Int) = first := by omega
    rw [if_neg below]
    split
    · exact written .plus size
    · exact written .absent size

theorem exists_power_of_readExponent? (read : readExponent? text = some exponent) :
    ∃ power : Option Power, power.elim [] Power.characters = text := by
  cases text with
  | nil => exact ⟨none, rfl⟩
  | cons mark rest =>
      obtain ⟨negative, digits, signed⟩ :
          ∃ negative digits, splitSign rest = (negative, digits) := ⟨_, _, rfl⟩
      obtain ⟨sign, rfl, -⟩ := exists_sign_of_splitSign signed
      rw [readExponent?, signed] at read
      simp only at read
      split at read
      next parts =>
        obtain ⟨isMark, inhabited, all⟩ := parts
        let digits : Digits := ⟨digits, inhabited, List.all_eq_true.mp all⟩
        rcases isMark with rfl | rfl
        · exact ⟨some ⟨false, sign, digits⟩, rfl⟩
        · exact ⟨some ⟨true, sign, digits⟩, rfl⟩
      next => cases read

end Powers

/-- A numeral is a literal, and it is read as the number that it denotes. -/
theorem Numeral.readLiteral?_characters (numeral : Numeral) :
    readLiteral? numeral.characters = some numeral.value := by
  obtain ⟨sign, whole, fraction, power⟩ := numeral
  obtain ⟨digit, more, shape⟩ := List.exists_cons_of_ne_nil whole.inhabited
  have isDigit : digit.isDigit = true := whole.isDigit digit (by simp [shape])
  have signed (behind : List Char) :
      readLiteral? (sign.characters ++ (whole.characters ++ behind)) =
        readLiteral? ((if sign.isNegative then ['-'] else []) ++
          (whole.characters ++ behind)) := by
    rw [shape, List.cons_append]
    exact readLiteral?_sign sign isDigit _
  rw [Numeral.characters, signed, Numeral.behindWhole]
  cases fraction with
  | none =>
      have read := readLiteral?_noPoint sign.isNegative whole.inhabited whole.isDigit
        (isTail_power power)
      simpa [Numeral.value, Numeral.places] using read
  | some digits =>
      exact readLiteral?_point sign.isNegative whole.inhabited whole.isDigit digits.isDigit
        (isTail_power power)

/-- The digits behind a point in front of a digit are a fraction. -/
theorem exists_fraction_of_splitFraction {fraction after : List Char}
    (points : PointsBeforeDigits text) (cut : splitFraction text = (fraction, after)) :
    ∃ digits : Option Digits,
      digits.elim [] (fun digits => '.' :: digits.characters) ++ after = text := by
  rw [splitFraction.eq_def] at cut
  split at cut
  next rest =>
    obtain ⟨rfl, all, stops⟩ := Text.eq_of_span cut
    refine ⟨some ⟨fraction, ?_, all⟩, rfl⟩
    rintro rfl
    obtain ⟨digit, first, isDigit⟩ := Option.any_eq_true _ _ |>.mp (points [] _ rfl)
    rw [stops digit first] at isDigit
    cases isDigit
  next =>
    cases cut
    exact ⟨none, rfl⟩

/-- A literal that begins with a digit, sign apart, and has a digit behind each point is a
numeral. -/
theorem isNumeral_of_readLiteral? (begins : BeginsWithDigit text)
    (points : PointsBeforeDigits text) (read : readLiteral? text = some value) :
    IsNumeral text := by
  obtain ⟨sign, digit, more, rfl, isDigit⟩ := begins
  obtain ⟨whole, afterWhole, first⟩ :
      ∃ whole afterWhole, (digit :: more).span Char.isDigit = (whole, afterWhole) := ⟨_, _, rfl⟩
  obtain ⟨fraction, afterFraction, second⟩ :
      ∃ fraction afterFraction, splitFraction afterWhole = (fraction, afterFraction) :=
    ⟨_, _, rfl⟩
  obtain ⟨exponent, third⟩ : ∃ exponent, readExponent? afterFraction = some exponent := by
    rw [readLiteral?, splitSign_characters_append sign isDigit more] at read
    simp only [first, second] at read
    split at read
    · cases read
    · obtain ⟨exponent, found, -⟩ := Option.map_eq_some_iff.mp read
      exact ⟨exponent, found⟩
  obtain ⟨same, all, stops⟩ := Text.eq_of_span first
  have inhabited : whole ≠ [] := by
    rintro rfl
    rw [List.nil_append] at same
    have noDigit := stops digit (by rw [← same]; rfl)
    rw [isDigit] at noDigit
    cases noDigit
  have later : PointsBeforeDigits afterWhole := by
    rintro front back rfl
    refine points (sign.characters ++ (whole ++ front)) back ?_
    rw [same, List.append_assoc, List.append_assoc]
  obtain ⟨digits, rfl⟩ := exists_fraction_of_splitFraction later second
  obtain ⟨power, rfl⟩ := exists_power_of_readExponent? third
  exact ⟨⟨sign, ⟨whole, inhabited, all⟩, digits, power⟩, by rw [same]; rfl⟩

end ApiAssembly.Decimal
