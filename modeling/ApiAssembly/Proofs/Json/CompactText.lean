import ApiAssembly.Proofs.Comment.Group
import ApiAssembly.Proofs.Json.RoundTrip
import ApiAssembly.Proofs.Text.Line
import ApiAssembly.Proofs.TypeExpr.Character

/-!
# Characters of compact JSON

A compact text is a single line without blanks at its ends.  Its brackets are those of the arrays
and those within strings and keys; the first have their partners, so the text is balanced as
soon as the strings and the keys are.
-/

namespace ApiAssembly.Json

open Comment (Balanced balanced_iff_closeGroup balanced_of_not_mem closeGroup
  closeGroup_append_of_error closeGroup_cons_eq_error_iff depthBehind)
open Text (isBlank Unindented Unpadded)

variable {value : Value} {items : List Value} {members : Members} {c : Char} {left : Nat}

section Ends

theorem isBlank_of_all {holds : Char → Bool}
    (tabulated : (Text.rangeCharacters Text.blankRanges).all (fun c => !holds c) = true)
    (admitted : holds c = true) : isBlank c = false := by
  rw [Bool.eq_false_iff]
  intro blank
  have rejected := List.all_eq_true.mp tabulated c (Text.mem_rangeCharacters blank)
  rw [admitted] at rejected
  cases rejected

theorem isNumberPart_of_mem_writeNumber {number : Number} (fits : number.Fits)
    (member : c ∈ writeNumber number) : isNumberPart c = true := by
  obtain ⟨negative, text, shape, whole, fraction, exponent, parts⟩ :=
    exists_isUnsigned_writeNumber fits
  obtain ⟨front, same, all⟩ := (parts [] endsNumber_nil).exists_front
  rw [List.append_nil, List.append_nil] at same
  subst same
  rw [shape] at member
  rcases List.mem_append.mp member with sign | inside
  · cases negative with
    | true =>
        rw [List.mem_singleton.mp sign]
        rfl
    | false => cases sign
  · exact all c inside

theorem unindented_compactChars (fit : value.NumbersFit) : Unindented (compactChars value) := by
  obtain ⟨first, rest, begins, starts⟩ := exists_compactChars_cons fit
  intro c member
  rw [begins] at member
  cases member
  exact isBlank_of_all (by decide) starts

theorem unpadded_compactChars (fit : value.NumbersFit) : Unpadded (compactChars value) := by
  cases value with
  | null => exact @Text.unpadded_concat 'l' (by decide) ['n', 'u', 'l']
  | bool flag =>
      cases flag with
      | true => exact @Text.unpadded_concat 'e' (by decide) ['t', 'r', 'u']
      | false => exact @Text.unpadded_concat 'e' (by decide) ['f', 'a', 'l', 's']
  | number number =>
      exact Text.unpadded_of_forall fun c member =>
        isBlank_of_all (by decide) (isNumberPart_of_mem_writeNumber fit.fits member)
  | string text => exact @Text.unpadded_concat '"' (by decide) _
  | array items => exact @Text.unpadded_concat ']' (by decide) _
  | object members => exact @Text.unpadded_concat '\x7d' (by decide) _

end Ends

section Parts

/-- Each string and each key within the value has a property. -/
inductive EachText (holds : String → Prop) : Value → Prop
  | null : EachText holds .null
  | bool (value : Bool) : EachText holds (.bool value)
  | number (value : Number) : EachText holds (.number value)
  | string {text : String} (own : holds text) : EachText holds (.string text)
  | array {items : List Value} (each : ∀ item ∈ items, EachText holds item) :
      EachText holds (.array items)
  | object {members : Members} (keys : ∀ member ∈ members, holds member.1)
      (each : ∀ member ∈ members, EachText holds member.2) : EachText holds (.object members)

theorem eachText_of_forall {holds : String → Prop} (all : ∀ text, holds text)
    (fit : value.NumbersFit) : EachText holds value := by
  induction fit with
  | null => exact .null
  | bool flag => exact .bool flag
  | number => exact .number _
  | string text => exact .string (all text)
  | array _ ih => exact .array ih
  | object _ ih => exact .object (fun member _ => all member.1) ih

theorem EachText.imp {holds implied : String → Prop} (implies : ∀ text, holds text → implied text)
    (texts : EachText holds value) : EachText implied value := by
  induction texts with
  | null => exact .null
  | bool flag => exact .bool flag
  | number number => exact .number number
  | string own => exact .string (implies _ own)
  | array _ ih => exact .array ih
  | object keys _ ih => exact .object (fun member inside => implies _ (keys member inside)) ih

/-- A property of texts that a compact text has as soon as its strings and keys have it. -/
structure Composes (holds : List Char → Prop) : Prop where
  plain {text : List Char} (all : ∀ c ∈ text, c ≠ '\n' ∧ c ≠ '[' ∧ c ≠ ']') : holds text
  append {front back : List Char} (first : holds front) (second : holds back) :
    holds (front ++ back)
  group {text : List Char} (inside : holds text) : holds ('[' :: (text ++ [']']))

variable {holds : List Char → Prop}

theorem Composes.compactItems (composes : Composes holds)
    (each : ∀ item ∈ items, holds (compactChars item)) : holds (compactItems items) := by
  induction items with
  | nil => exact composes.plain (List.forall_mem_nil _)
  | cons item items ih =>
      rw [List.forall_mem_cons] at each
      cases items with
      | nil => exact each.1
      | cons next items =>
          have comma : holds [','] := composes.plain (by decide)
          exact composes.append each.1 (composes.append comma (ih each.2))

theorem Composes.compactMembers (composes : Composes holds)
    (keys : ∀ member ∈ members, holds (writeString member.1))
    (each : ∀ member ∈ members, holds (compactChars member.2)) :
    holds (compactMembers members) := by
  induction members with
  | nil => exact composes.plain (List.forall_mem_nil _)
  | cons member members ih =>
      obtain ⟨key, value⟩ := member
      rw [List.forall_mem_cons] at keys each
      have colon : holds [':'] := composes.plain (by decide)
      have comma : holds [','] := composes.plain (by decide)
      cases members with
      | nil => exact composes.append keys.1 (composes.append colon each.1)
      | cons next members =>
          rw [compactMembers_cons_cons]
          exact composes.append keys.1 (composes.append colon
            (composes.append each.1 (composes.append comma (ih keys.2 each.2))))

theorem Composes.compactChars (composes : Composes holds) (fit : value.NumbersFit)
    (texts : EachText (fun text => holds (writeString text)) value) :
    holds (compactChars value) := by
  induction texts with
  | null => exact composes.plain (by decide)
  | bool flag => cases flag <;> exact composes.plain (by decide)
  | number number =>
      refine composes.plain fun c member => ?_
      have part := isNumberPart_of_mem_writeNumber fit.fits member
      refine ⟨?_, ?_, ?_⟩
      all_goals
        rintro rfl
        cases part
  | string own => exact own
  | array _ ih =>
      exact composes.group (composes.compactItems fun item member =>
        ih item member (fit.item member))
  | object keys _ ih =>
      have inside := composes.compactMembers keys fun member inside =>
        ih member inside (fit.member inside)
      have opening : holds ['\x7b'] := composes.plain (by decide)
      have closing : holds ['\x7d'] := composes.plain (by decide)
      exact composes.append (composes.append opening inside) closing

end Parts

section Escapes

/-- A character is written as it is, or with characters that neither break the line nor are
brackets. -/
theorem escape_eq_or (c : Char) :
    escape c = [c] ∧ c ≠ '\n' ∨ ∀ d ∈ escape c, d ≠ '\n' ∧ d ≠ '[' ∧ d ≠ ']' := by
  have units : ∀ n < 0x20, ∀ d ∈ ['\\', 'u', '0', '0', (n / 16).digitChar, (n % 16).digitChar],
      d ≠ '\n' ∧ d ≠ '[' ∧ d ≠ ']' := by
    decide
  rw [escape]
  split
  · exact .inr (by decide)
  split
  · exact .inr (by decide)
  split
  · exact .inr (by decide)
  next noLineFeed =>
    split
    · exact .inr (by decide)
    split
    · exact .inr (by decide)
    split
    · exact .inr (by decide)
    split
    · exact .inr (by decide)
    split
    next control => exact .inr (units c.toNat control)
    next => exact .inl ⟨rfl, noLineFeed⟩

theorem lineFeed_not_mem_writeString (text : String) : '\n' ∉ writeString text := by
  have inside : '\n' ∉ text.toList.flatMap escape := by
    intro member
    obtain ⟨c, -, escaped⟩ := List.mem_flatMap.mp member
    rcases escape_eq_or c with ⟨same, noLineFeed⟩ | others
    · rw [same, List.mem_singleton] at escaped
      exact noLineFeed escaped.symm
    · exact (others '\n' escaped).1 rfl
  simpa [writeString] using inside

theorem lineFeed_not_mem_compactChars (fit : value.NumbersFit) : '\n' ∉ compactChars value := by
  have composes : Composes fun text => '\n' ∉ text := by
    refine ⟨fun all member => (all '\n' member).1 rfl, fun first second => ?_, fun inside => ?_⟩
    · rw [List.mem_append, not_or]
      exact ⟨first, second⟩
    · simpa using inside
  exact composes.compactChars fit (eachText_of_forall lineFeed_not_mem_writeString fit)

theorem escape_ne_nil (c : Char) : escape c ≠ [] := by
  rw [escape]
  repeat' split
  all_goals exact List.cons_ne_nil _ _

theorem length_le_length_flatMap_escape (text : List Char) :
    text.length ≤ (text.flatMap escape).length := by
  induction text with
  | nil => exact Nat.le_refl 0
  | cons c text ih =>
      have positive := List.length_pos_of_ne_nil (escape_ne_nil c)
      rw [List.flatMap_cons, List.length_append, List.length_cons]
      omega

/-- A text that is a beginning of itself within quotes has no other characters than those that are
escaped. -/
theorem eq_or_eq_of_mem_of_quoted {text rest more : List Char}
    (quoted : '"' :: (text.flatMap escape ++ rest) = text ++ more) :
    ∀ c ∈ text, c = '"' ∨ c = '\\' := by
  have fronts : ∀ front, front <+: text → ∀ c ∈ front, c = '"' ∨ c = '\\' := by
    intro front
    induction front using List.reverseRecOn with
    | nil => exact fun _ => List.forall_mem_nil _
    | append_singleton front c ih =>
        intro start
        have earlier := ih ((List.prefix_append front [c]).trans start)
        -- What stands in front of the character, in quotes, reaches beyond the character.
        have escapes : ∀ d ∈ front.flatMap escape, d = '"' ∨ d = '\\' := by
          intro d member
          obtain ⟨c, inFront, escaped⟩ := List.mem_flatMap.mp member
          rcases earlier c inFront with rfl | rfl
          · exact (by decide : ∀ d ∈ escape '"', d = '"' ∨ d = '\\') d escaped
          · exact (by decide : ∀ d ∈ escape '\\', d = '"' ∨ d = '\\') d escaped
        have inText : front ++ [c] <+: text ++ more := start.trans (List.prefix_append text more)
        have inQuoted : '"' :: front.flatMap escape <+: text ++ more := by
          obtain ⟨back, rfl⟩ := (List.prefix_append front [c]).trans start
          rw [← quoted, List.flatMap_append, List.append_assoc]
          exact List.cons_prefix_cons.mpr ⟨rfl, List.prefix_append _ _⟩
        have long : (front ++ [c]).length ≤ ('"' :: front.flatMap escape).length := by
          simpa using length_le_length_flatMap_escape front
        have within := List.prefix_of_prefix_length_le inText inQuoted long
        intro d member
        rcases List.mem_cons.mp (within.subset member) with rfl | escaped
        · exact .inl rfl
        · exact escapes d escaped
  exact fronts text List.prefix_rfl

/-- Escaping does not touch brackets. -/
theorem closeGroup_flatMap_escape_eq_error_iff {depth : Nat} {text : List Char} :
    closeGroup '[' ']' depth (text.flatMap escape) = .error left ↔
      closeGroup '[' ']' depth text = .error left := by
  induction text generalizing depth with
  | nil => rfl
  | cons c text ih =>
      rw [List.flatMap_cons, closeGroup_cons_eq_error_iff]
      rcases escape_eq_or c with ⟨same, -⟩ | others
      · rw [same, List.singleton_append, closeGroup_cons_eq_error_iff, ih]
      · have noOpening : c ≠ '[' := by
          rintro rfl
          exact absurd rfl (others '[' (by decide)).2.1
        have noClosing : c ≠ ']' := by
          rintro rfl
          exact absurd rfl (others ']' (by decide)).2.2
        have same : depthBehind '[' ']' depth c = depth := by
          rw [depthBehind, if_neg noOpening, if_neg noClosing]
        have through : Balanced '[' ']' (escape c) :=
          balanced_of_not_mem (fun member => (others _ member).2.1 rfl)
            fun member => (others _ member).2.2 rfl
        rw [closeGroup_append_of_error (through.closeGroup_eq (by decide) depth), same, ← ih]
        cases closeGroup '[' ']' depth (text.flatMap escape) with
        | ok found => simp [Except.map]
        | error other => simp [Except.map, noClosing]

theorem balanced_writeString {text : String} (balanced : Balanced '[' ']' text.toList) :
    Balanced '[' ']' (writeString text) := by
  have distinct : '[' ≠ ']' := by decide
  have quote : Balanced '[' ']' ['"'] := by decide
  have inside : Balanced '[' ']' (text.toList.flatMap escape) := by
    rw [balanced_iff_closeGroup distinct] at balanced ⊢
    exact closeGroup_flatMap_escape_eq_error_iff.mpr balanced
  exact (quote.append distinct inside).append distinct quote

/-- The brackets of arrays have their partners. -/
theorem balanced_compactChars (fit : value.NumbersFit)
    (texts : EachText (fun text => Balanced '[' ']' text.toList) value) :
    Balanced '[' ']' (compactChars value) := by
  have distinct : '[' ≠ ']' := by decide
  have composes : Composes (Balanced '[' ']') := by
    refine ⟨fun all => ?_, Balanced.append distinct, Balanced.group distinct⟩
    exact balanced_of_not_mem (fun member => (all _ member).2.1 rfl)
      fun member => (all _ member).2.2 rfl
  exact composes.compactChars fit (texts.imp fun _ => balanced_writeString)

end Escapes

end ApiAssembly.Json
