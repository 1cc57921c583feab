import ApiAssembly.Proofs.Decimal.Numeral
import ApiAssembly.Proofs.TypeExpr.Lexing
import ApiAssembly.TypeExpr.Parse

/-!
# Numbers in type expressions

The characters that are gathered where a number begins need not be a numeral: they go on with
every letter of an exponent, with a sign behind such a letter and with a point in front of a
digit.  But whatever numeral stands there is gathered as a whole.  So a number is read if and
only if what is gathered is a numeral, which is then the longest one; otherwise the text is
rejected at the place where the number begins.
-/

namespace ApiAssembly.TypeExpr

open Decimal (BeginsWithDigit Binary64 IsNumeral Numeral PointsBeforeDigits Power)

variable {c previous : Char} {text front rest run after : List Char}

section Gathering

/-- The whole text is gathered behind a character of a number. -/
def IsNumberRun (previous : Char) (text : List Char) : Prop :=
  numberRun previous text = (text, [])

theorem isNumberRun_nil (previous : Char) : IsNumberRun previous [] := rfl

theorem isNumberRun_cons_iff :
    IsNumberRun previous (c :: rest) ↔
      continuesNumber previous c rest.head? = true ∧ IsNumberRun c rest :=
  numberRun_cons_alone_iff

theorem isNumberRun_digits_append {digits : List Char} (all : ∀ c ∈ digits, c.isDigit = true)
    (behind : ∀ previous, IsNumberRun previous text) (previous : Char) :
    IsNumberRun previous (digits ++ text) := by
  induction digits generalizing previous with
  | nil => exact behind previous
  | cons digit digits ih =>
      obtain ⟨isDigit, others⟩ := List.forall_mem_cons.mp all
      exact isNumberRun_cons_iff.mpr ⟨by simp [continuesNumber, isDigit], ih others digit⟩

theorem isNumberRun_digits (digits : Decimal.Digits) (previous : Char) :
    IsNumberRun previous digits.characters := by
  rw [← List.append_nil digits.characters]
  exact isNumberRun_digits_append digits.isDigit isNumberRun_nil previous

theorem isNumberRun_power (power : Power) (previous : Char) :
    IsNumberRun previous power.characters := by
  refine isNumberRun_cons_iff.mpr ⟨?_, ?_⟩
  · cases power.capital <;> simp [continuesNumber]
  · have digits := isNumberRun_digits power.digits
    cases power.sign with
    | absent => exact digits _
    | plus =>
        refine isNumberRun_cons_iff.mpr ⟨?_, digits '+'⟩
        cases power.capital <;> simp [continuesNumber]
    | minus =>
        refine isNumberRun_cons_iff.mpr ⟨?_, digits '-'⟩
        cases power.capital <;> simp [continuesNumber]

theorem isNumberRun_behindWhole (numeral : Numeral) (previous : Char) :
    IsNumberRun previous numeral.behindWhole := by
  have power (previous : Char) :
      IsNumberRun previous (numeral.power.elim [] Power.characters) := by
    cases numeral.power with
    | none => exact isNumberRun_nil previous
    | some power => exact isNumberRun_power power previous
  rw [Numeral.behindWhole]
  cases numeral.fraction with
  | none => exact power previous
  | some digits =>
      obtain ⟨digit, more, shape⟩ := List.exists_cons_of_ne_nil digits.inhabited
      have isDigit : digit.isDigit = true := digits.isDigit digit (by simp [shape])
      refine isNumberRun_cons_iff.mpr ⟨?_, isNumberRun_digits_append digits.isDigit power '.'⟩
      simp [continuesNumber, shape, isDigit]

/-- Behind its first character the whole of a numeral is gathered. -/
theorem exists_cons_of_numeral (numeral : Numeral) :
    ∃ c rest, numeral.characters = c :: rest ∧ IsNumberRun c rest := by
  have unsigned := isNumberRun_digits_append numeral.whole.isDigit
    (isNumberRun_behindWhole numeral)
  rw [Numeral.characters]
  cases numeral.sign with
  | absent =>
      obtain ⟨digit, more, shape⟩ := List.exists_cons_of_ne_nil numeral.whole.inhabited
      rw [shape] at unsigned ⊢
      exact ⟨digit, more ++ numeral.behindWhole, rfl, (isNumberRun_cons_iff.mp (unsigned digit)).2⟩
  | plus => exact ⟨'+', _, rfl, unsigned '+'⟩
  | minus => exact ⟨'-', _, rfl, unsigned '-'⟩

/-- A numeral in front of a text is gathered as a whole. -/
theorem prefix_run_of_isNumeral (isNumeral : IsNumeral text) (inFront : text <+: c :: rest)
    (gathered : numberRun c rest = (run, after)) : text <+: c :: run := by
  obtain ⟨numeral, rfl⟩ := isNumeral
  obtain ⟨first, more, shape, alone⟩ := exists_cons_of_numeral numeral
  rw [shape] at inFront ⊢
  obtain ⟨behind, same⟩ := inFront
  obtain ⟨rfl, rfl⟩ : first = c ∧ more ++ behind = rest := List.cons.inj same
  rw [IsNumberRun, numberRun_eq_runWhile] at alone
  have begins := prefix_of_runWhile_alone looksAhead_continuesNumber alone behind
  rw [← numberRun_eq_runWhile, gathered] at begins
  exact List.cons_prefix_cons.mpr ⟨rfl, begins⟩

/-- A point is gathered in front of a digit only. -/
theorem IsNumberRun.pointsBeforeDigits (alone : IsNumberRun previous text) :
    PointsBeforeDigits text := by
  induction text generalizing previous with
  | nil =>
      intro front back same
      cases front <;> cases same
  | cons c rest ih =>
      obtain ⟨first, inner⟩ := isNumberRun_cons_iff.mp alone
      intro front back same
      cases front with
      | nil =>
          cases same
          simpa [continuesNumber] using first
      | cons d front =>
          cases same
          exact ih inner front back rfl

theorem beginsWithDigit_of_beginsNumber (begins : beginsNumber c rest = true) :
    BeginsWithDigit (c :: rest) := by
  rw [beginsNumber, Bool.or_eq_true, Bool.and_eq_true] at begins
  rcases begins with isDigit | ⟨isSign, behind⟩
  · exact ⟨.absent, c, rest, rfl, isDigit⟩
  · obtain ⟨digit, first, isDigit⟩ := Option.any_eq_true _ _ |>.mp behind
    obtain ⟨more, rfl⟩ := List.head?_eq_some_iff.mp first
    rw [Bool.or_eq_true, decide_eq_true_eq, decide_eq_true_eq] at isSign
    rcases isSign with rfl | rfl
    · exact ⟨.minus, digit, more, rfl, isDigit⟩
    · exact ⟨.plus, digit, more, rfl, isDigit⟩

/-- What is gathered for a number is a literal only if it is a numeral. -/
theorem isNumeral_of_gathered {value : Binary64} (begins : beginsNumber c rest = true)
    (gathered : numberRun c rest = (run, after))
    (read : Decimal.readLiteral? (c :: run) = some value) : IsNumeral (c :: run) := by
  have alone : IsNumberRun c run := (numberRun_alone gathered).1
  have points : PointsBeforeDigits (c :: run) := by
    intro front back same
    cases front with
    | nil => exact absurd (List.cons.inj same).1 (separate_of_beginsNumber begins).2.1
    | cons d front =>
        cases same
        exact alone.pointsBeforeDigits front back rfl
  have beginsRun := beginsNumber_of_numberRun begins gathered
  exact Decimal.isNumeral_of_readLiteral? (beginsWithDigit_of_beginsNumber beginsRun) points read

/-- The text in front is a numeral, and no longer one stands there. -/
structure IsLongestNumeral (front text : List Char) : Prop where
  isNumeral : IsNumeral front
  inFront : front <+: text
  longest : ∀ other, IsNumeral other → other <+: text → other.length ≤ front.length

theorem isLongestNumeral_of_gathered (gathered : numberRun c rest = (run, after))
    (isNumeral : IsNumeral (c :: run)) : IsLongestNumeral (c :: run) (c :: rest) := by
  refine ⟨isNumeral, ⟨after, ?_⟩, fun other isNumeral inFront => ?_⟩
  · rw [(numberRun_alone gathered).2, List.cons_append]
  · exact (prefix_run_of_isNumeral isNumeral inFront gathered).length_le

end Gathering

section Reading

variable (begins : beginsNumber c rest = true) (gathered : numberRun c rest = (run, after))

include begins gathered

theorem firstToken_of_numeral {numeral : Numeral} (same : numeral.characters = c :: run) :
    firstToken c rest = .ok (.number numeral.value, after) := by
  rw [firstToken_of_beginsNumber begins gathered, ← same, numeral.readLiteral?_characters]
  rfl

theorem firstToken_of_not_isNumeral (noNumeral : ¬IsNumeral (c :: run)) :
    firstToken c rest = .error (.invalidNumber (String.ofList (c :: run))) := by
  have noLiteral : Decimal.readLiteral? (c :: run) = none :=
    Option.eq_none_iff_forall_ne_some.mpr fun _ read =>
      noNumeral (isNumeral_of_gathered begins gathered read)
  rw [firstToken_of_beginsNumber begins gathered, noLiteral]
  rfl

theorem exists_firstToken_iff_isNumeral :
    (∃ found, firstToken c rest = .ok found) ↔ IsNumeral (c :: run) := by
  constructor
  · rintro ⟨found, read⟩
    by_contra noNumeral
    rw [firstToken_of_not_isNumeral begins gathered noNumeral] at read
    cases read
  · rintro ⟨numeral, same⟩
    exact ⟨_, firstToken_of_numeral begins gathered same⟩

/-- The cutting ends with the offset at which the number begins. -/
theorem tokensWithin_of_not_isNumeral (place : text = front ++ c :: rest)
    (noNumeral : ¬IsNumeral (c :: run)) : tokensWithin (Text.byteLength text) (c :: rest) =
      .error (Text.byteLength front, .invalidNumber (String.ofList (c :: run))) := by
  have failed := firstToken_of_not_isNumeral begins gathered noNumeral
  have notBlank : Text.isBlank c = false := by
    cases blank : Text.isBlank c with
    | false => rfl
    | true => rw [firstToken_of_isBlank blank] at failed; cases failed
  rw [tokensWithin_of_error _ notBlank failed, place, Text.byteLength_append,
    Nat.add_sub_cancel_right]

end Reading

section Arriving

/-- The places to which the cutting of a text comes: the tokens up to there, and what stands
behind them. -/
inductive Arrives (text : List Char) : List (Nat × Token) → List Char → Prop
  | start : Arrives text [] text
  | blank {located : List (Nat × Token)} {c : Char} {rest : List Char} :
      Arrives text located (c :: rest) → Text.isBlank c = true → Arrives text located rest
  | token {located : List (Nat × Token)} {c : Char} {rest after : List Char} {token : Token} :
      Arrives text located (c :: rest) → firstToken c rest = .ok (token, after) →
        Arrives text
          (located ++ [(Text.byteLength text - Text.byteLength (c :: rest), token)]) after

variable {located : List (Nat × Token)}

/-- The tokens of a text are those up to a place and those behind it. -/
theorem Arrives.tokens_eq (arrives : Arrives text located rest) :
    tokens text = (tokensWithin (Text.byteLength text) rest).map (located ++ ·) := by
  induction arrives with
  | start =>
      rw [tokens]
      cases tokensWithin (Text.byteLength text) text <;> rfl
  | blank _ blank ih => rw [ih, tokensWithin_of_isBlank _ blank]
  | token _ found ih =>
      rw [ih, tokensWithin_of_ok _ found]
      cases tokensWithin (Text.byteLength text) _ with
      | error failure => rfl
      | ok others => simp [Except.map]

/-- What is wrong at a place to which the cutting comes is wrong with the text. -/
theorem Arrives.parse_eq {text : String} {failure : Nat × TokenError}
    (arrives : Arrives text.toList located rest)
    (failed : tokensWithin (Text.byteLength text.toList) rest = .error failure) :
    parse text = .error ⟨text, failure.1, .token failure.2⟩ := by
  rw [parse, arrives.tokens_eq, failed]
  rfl

end Arriving

/-- Where a number begins in a text, a token is read if and only if the characters that are
gathered are a numeral.  The token is then its number, and no longer numeral stands there.
Otherwise the cutting ends with the offset at which the number begins, and so does the reading
of the text if the cutting comes to this place. -/
theorem firstToken_reads_longest_numeral {text : String}
    (place : text.toList = front ++ c :: rest) (begins : beginsNumber c rest = true)
    (gathered : numberRun c rest = (run, after)) :
    ((∃ found, firstToken c rest = .ok found) ↔ IsNumeral (c :: run)) ∧
    (∀ numeral : Numeral, numeral.characters = c :: run →
      firstToken c rest = .ok (.number numeral.value, after) ∧
        IsLongestNumeral (c :: run) (c :: rest)) ∧
    (¬IsNumeral (c :: run) →
      tokensWithin (Text.byteLength text.toList) (c :: rest) =
        .error (Text.byteLength front, .invalidNumber (String.ofList (c :: run))) ∧
      ∀ located, Arrives text.toList located (c :: rest) →
        parse text = .error ⟨text, Text.byteLength front,
          .token (.invalidNumber (String.ofList (c :: run)))⟩) := by
  refine ⟨exists_firstToken_iff_isNumeral begins gathered, fun numeral same => ?_,
    fun noNumeral => ?_⟩
  · exact ⟨firstToken_of_numeral begins gathered same,
      isLongestNumeral_of_gathered gathered ⟨numeral, same⟩⟩
  · have failed := tokensWithin_of_not_isNumeral begins gathered place noNumeral
    exact ⟨failed, fun located arrives => arrives.parse_eq failed⟩

/-- The numeral `-1.5E+3`. -/
def minusFifteenHundred : Numeral where
  sign := .minus
  whole := ⟨['1'], List.cons_ne_nil _ _, List.all_eq_true.mp rfl⟩
  fraction := some ⟨['5'], List.cons_ne_nil _ _, List.all_eq_true.mp rfl⟩
  power := some ⟨true, .plus, ['3'], List.cons_ne_nil _ _, List.all_eq_true.mp rfl⟩

/-- The first number is read up to the bar behind its exponent.  Of the second only a part is a
numeral, and its offset counts two bytes for the letter with the accent. -/
theorem parse_pointBehindExponent :
    firstToken '-' "1.5E+3|2e4.5".toList =
        .ok (.number ⟨0xC097700000000000⟩, '|' :: '2' :: "e4.5".toList) ∧
      IsLongestNumeral ('-' :: "1.5E+3".toList) ('-' :: "1.5E+3|2e4.5".toList) ∧
      ¬IsNumeral ('2' :: "e4.5".toList) ∧
      parse "é|-1.5E+3|2e4.5" =
        .error ⟨"é|-1.5E+3|2e4.5", 11, .token (.invalidNumber "2e4.5")⟩ := by
  have value : minusFifteenHundred.value = ⟨0xC097700000000000⟩ := by decide +kernel
  have first : "é|-1.5E+3|2e4.5".toList = "é|".toList ++ '-' :: "1.5E+3|2e4.5".toList := by
    decide +kernel
  have firstRun : numberRun '-' "1.5E+3|2e4.5".toList =
      ("1.5E+3".toList, '|' :: '2' :: "e4.5".toList) := by decide +kernel
  obtain ⟨-, read, -⟩ := firstToken_reads_longest_numeral first rfl firstRun
  obtain ⟨found, longest⟩ := read minusFifteenHundred (by decide +kernel)
  rw [value] at found
  have second : "é|-1.5E+3|2e4.5".toList = "é|-1.5E+3|".toList ++ '2' :: "e4.5".toList := by
    decide +kernel
  have secondRun : numberRun '2' "e4.5".toList = ("e4.5".toList, []) := by decide +kernel
  obtain ⟨accepted, -, rejected⟩ := firstToken_reads_longest_numeral second rfl secondRun
  have failed : firstToken '2' "e4.5".toList = .error (.invalidNumber "2e4.5") := by
    decide +kernel
  have noNumeral : ¬IsNumeral ('2' :: "e4.5".toList) := by
    intro isNumeral
    obtain ⟨token, read⟩ := accepted.mpr isNumeral
    rw [failed] at read
    cases read
  have shape : "é|-1.5E+3|2e4.5".toList = 'é' :: '|' :: '-' :: "1.5E+3|2e4.5".toList := by
    decide +kernel
  have begun : Arrives "é|-1.5E+3|2e4.5".toList [] ('é' :: '|' :: '-' :: "1.5E+3|2e4.5".toList) :=
    Eq.mp (congrArg (Arrives _ []) shape) .start
  have word : firstToken 'é' ('|' :: '-' :: "1.5E+3|2e4.5".toList) =
      .ok (.word "é", '|' :: '-' :: "1.5E+3|2e4.5".toList) := by decide +kernel
  have bar (rest : List Char) : firstToken '|' rest = .ok (.pipe, rest) := rfl
  have arrives := (((begun.token word).token (bar _)).token found).token (bar _)
  have offset : Text.byteLength "é|-1.5E+3|".toList = 11 := by decide +kernel
  have spelled : String.ofList ('2' :: "e4.5".toList) = "2e4.5" := by decide +kernel
  have refused := (rejected noNumeral).2 _ arrives
  rw [offset, spelled] at refused
  exact ⟨found, longest, noNumeral, refused⟩

end ApiAssembly.TypeExpr
