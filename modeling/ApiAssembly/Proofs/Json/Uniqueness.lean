import ApiAssembly.Proofs.Json.CompactText

/-!
# Values with the same compact text

The first character of a compact text tells the kind of the value, and the text of a part tells
where the part ends.  So two values with the same compact text are the same value, the order of
members included, as far as their numbers fit.
-/

namespace ApiAssembly.Json

open Decimal (Layout Scaled intDigits natDigits)

section Numbers

/-- Every floating-point text has a point or an exponent. -/
theorem mark_mem_scaled (layout : Layout) (decimal : Scaled) :
    '.' ∈ layout.scaled decimal ∨ 'e' ∈ layout.scaled decimal := by
  have form := layout.laidOut_scaled decimal
  generalize layout.scaled decimal = text at form ⊢
  cases form with
  | whole | inside | behind | power => exact .inl (by simp)
  | single => exact .inr (by simp [Layout.powerText])

theorem mark_mem_finite (layout : Layout) (x : Decimal.Binary64) :
    '.' ∈ layout.finite x ∨ 'e' ∈ layout.finite x := by
  rw [Layout.finite]
  by_cases zero : x.isZero = true
  · rw [if_pos zero]
    exact .inl (List.mem_append_right _ (by decide))
  · rw [if_neg zero]
    exact (mark_mem_scaled layout _).imp (List.mem_append_right _) (List.mem_append_right _)

theorem isDigit_or_of_mem_intDigits {value : Int} {c : Char} (member : c ∈ intDigits value) :
    c.isDigit = true ∨ c = '-' := by
  rw [intDigits] at member
  split at member
  · rcases List.mem_cons.mp member with minus | digit
    · exact .inr minus
    · exact .inl (Decimal.isDigit_of_mem_natDigits digit)
  · exact .inl (Decimal.isDigit_of_mem_natDigits member)

theorem writeNumber_whole_ne_float {value : Int} {x : Decimal.Binary64}
    (finite : x.isFinite = true) : writeNumber (.whole value) ≠ writeNumber (.float x) := by
  intro same
  rw [writeNumber, writeNumber, if_pos finite] at same
  rcases mark_mem_finite numberLayout x with point | exponent
  · rw [← same] at point
    exact absurd (isDigit_or_of_mem_intDigits point) (by decide)
  · rw [← same] at exponent
    exact absurd (isDigit_or_of_mem_intDigits exponent) (by decide)

theorem writeNumber_injective {number other : Number} (fits : number.Fits)
    (otherFits : other.Fits) (same : writeNumber number = writeNumber other) : number = other := by
  cases number with
  | whole value =>
      cases other with
      | whole otherValue =>
          have read := reread?_whole fits
          rw [reread?, same, ← reread?, reread?_whole otherFits] at read
          exact (Option.some.inj read).symm
      | float otherValue => exact absurd same (writeNumber_whole_ne_float otherFits)
  | float value =>
      cases other with
      | whole otherValue => exact absurd same.symm (writeNumber_whole_ne_float fits)
      | float otherValue =>
          have finite : value.isFinite = true := fits
          have otherFinite : otherValue.isFinite = true := otherFits
          rw [writeNumber, writeNumber, if_pos finite, if_pos otherFinite] at same
          have read := numberLayout.readLiteral?_finite finite
          rw [same, numberLayout.readLiteral?_finite otherFinite] at read
          rw [Option.some.inj read]

/-- A text that does not go on with a character of a number. -/
def EndsPlain (text : List Char) : Prop :=
  ∀ c ∈ text.head?, isNumberPart c = false

theorem takeWhile_writeNumber_append {number : Number} (fits : number.Fits) {rest : List Char}
    (ends : EndsPlain rest) :
    (writeNumber number ++ rest).takeWhile isNumberPart = writeNumber number := by
  have nothing : rest.takeWhile isNumberPart = [] := by
    cases rest with
    | nil => rfl
    | cons c rest => exact List.takeWhile_cons_of_neg (by simp [ends c rfl])
  rw [List.takeWhile_append_of_pos fun c member => isNumberPart_of_mem_writeNumber fits member,
    nothing, List.append_nil]

end Numbers

section Kinds

/-- The kind of the values whose compact texts begin with the character. -/
def kindOf (c : Char) : ValueKind :=
  if c = 'n' then .null
  else if c = 't' ∨ c = 'f' then .boolean
  else if c = '"' then .string
  else if c = '[' then .sequence
  else if c = '\x7b' then .mapping
  else .number

theorem kindOf_of_isDigit_or {c : Char} (numeric : c.isDigit = true ∨ c = '-') :
    kindOf c = .number := by
  have other {letter : Char} (noDigit : letter.isDigit = false) (noMinus : letter ≠ '-') :=
    ne_of_isDigit_or numeric noDigit noMinus
  rw [kindOf, if_neg (other rfl (by decide)), if_neg, if_neg (other rfl (by decide)),
    if_neg (other rfl (by decide)), if_neg (other rfl (by decide))]
  exact not_or.mpr ⟨other rfl (by decide), other rfl (by decide)⟩

theorem exists_compactChars_of_kind {value : Value} (fit : value.NumbersFit) :
    ∃ c rest, compactChars value = c :: rest ∧ kindOf c = value.kind := by
  cases value with
  | null => exact ⟨'n', _, rfl, rfl⟩
  | bool flag => cases flag <;> exact ⟨_, _, rfl, rfl⟩
  | number number =>
      obtain ⟨c, rest, shape, numeric⟩ := exists_writeNumber_cons fit.fits
      exact ⟨c, rest, shape, kindOf_of_isDigit_or numeric⟩
  | string text => exact ⟨'"', _, rfl, rfl⟩
  | array items => exact ⟨'[', _, rfl, rfl⟩
  | object members => exact ⟨'\x7b', _, rfl, rfl⟩

theorem kind_eq_of_compactChars_append {value other : Value} (fit : value.NumbersFit)
    (otherFit : other.NumbersFit) {rest more : List Char}
    (same : compactChars value ++ rest = compactChars other ++ more) : value.kind = other.kind := by
  obtain ⟨c, chars, shape, kind⟩ := exists_compactChars_of_kind fit
  obtain ⟨d, others, otherShape, otherKind⟩ := exists_compactChars_of_kind otherFit
  rw [shape, otherShape, List.cons_append, List.cons_append, List.cons.injEq] at same
  rw [← kind, ← otherKind, same.1]

end Kinds

section Lists

variable {α : Type} {write : α → List Char} {fits : α → Prop} {closing : Char}
  {parts others : List α} {rest more : List Char}

/-- Where the text of the part stands in front of a text, no other part's does, and what is
behind it is the same. -/
def Determines (write : α → List Char) (fits : α → Prop) (part : α) : Prop :=
  ∀ other rest more, fits other → EndsPlain rest → EndsPlain more →
    write part ++ rest = write other ++ more → part = other ∧ rest = more

/-- The texts of the parts that stand behind another one. -/
def continued (write : α → List Char) (parts : List α) : List Char :=
  parts.flatMap fun part => ',' :: write part

theorem endsPlain_continued (plain : isNumberPart closing = false) (parts : List α)
    (rest : List Char) : EndsPlain (continued write parts ++ closing :: rest) := by
  intro c member
  cases parts with
  | nil =>
      cases member
      exact plain
  | cons part parts =>
      cases member
      rfl

theorem eq_of_continued_append (plain : isNumberPart closing = false) (noComma : closing ≠ ',')
    (determines : ∀ part ∈ parts, Determines write fits part) (fit : ∀ part ∈ others, fits part)
    (same : continued write parts ++ closing :: rest = continued write others ++ closing :: more) :
    parts = others ∧ rest = more := by
  induction parts generalizing others with
  | nil =>
      cases others with
      | nil => exact ⟨rfl, (List.cons.inj same).2⟩
      | cons => exact absurd (List.cons.inj same).1 noComma
  | cons part parts ih =>
      cases others with
      | nil => exact absurd (List.cons.inj same).1.symm noComma
      | cons other others =>
          rw [List.forall_mem_cons] at determines fit
          rw [continued, continued, List.flatMap_cons, List.flatMap_cons, List.append_assoc,
            List.append_assoc] at same
          obtain ⟨rfl, later⟩ := determines.1 other _ _ fit.1 (endsPlain_continued plain _ _)
            (endsPlain_continued plain _ _) (List.cons.inj same).2
          obtain ⟨rfl, behind⟩ := ih determines.2 fit.2 later
          exact ⟨rfl, behind⟩

/-- The texts of the parts with commas between them. -/
def listed (write : α → List Char) : List α → List Char
  | [] => []
  | part :: parts => write part ++ continued write parts

/-- The parts of a list can be told from its text up to the closing character, if no part
begins with this character. -/
theorem eq_of_listed_append (plain : isNumberPart closing = false) (noComma : closing ≠ ',')
    (begins : ∀ part, fits part → ∃ c text, write part = c :: text ∧ c ≠ closing)
    (determines : ∀ part ∈ parts, Determines write fits part)
    (fit : ∀ part ∈ parts, fits part) (otherFit : ∀ part ∈ others, fits part)
    (same : listed write parts ++ closing :: rest = listed write others ++ closing :: more) :
    parts = others ∧ rest = more := by
  cases parts with
  | nil =>
      cases others with
      | nil => exact ⟨rfl, (List.cons.inj same).2⟩
      | cons other others =>
          obtain ⟨c, text, shape, different⟩ := begins other (otherFit other List.mem_cons_self)
          rw [listed, listed, shape] at same
          exact absurd (List.cons.inj same).1.symm different
  | cons part parts =>
      cases others with
      | nil =>
          obtain ⟨c, text, shape, different⟩ := begins part (fit part List.mem_cons_self)
          rw [listed, listed, shape] at same
          exact absurd (List.cons.inj same).1 different
      | cons other others =>
          rw [List.forall_mem_cons] at determines otherFit
          rw [listed, listed, List.append_assoc, List.append_assoc] at same
          obtain ⟨rfl, later⟩ := determines.1 other _ _ otherFit.1 (endsPlain_continued plain _ _)
            (endsPlain_continued plain _ _) same
          obtain ⟨rfl, behind⟩ :=
            eq_of_continued_append plain noComma determines.2 otherFit.2 later
          exact ⟨rfl, behind⟩

theorem compactItems_eq_listed (items : List Value) :
    compactItems items = listed compactChars items := by
  induction items with
  | nil => rfl
  | cons item items ih =>
      cases items with
      | nil => exact (List.append_nil _).symm
      | cons next items =>
          rw [compactItems, ih]
          · rfl
          · exact List.cons_ne_nil next items

def memberChars (member : String × Value) : List Char :=
  writeString member.1 ++ ':' :: compactChars member.2

theorem compactMembers_eq_listed (members : List (String × Value)) :
    compactMembers members = listed memberChars members := by
  induction members with
  | nil => rfl
  | cons member members ih =>
      cases members with
      | nil => exact (List.append_nil _).symm
      | cons next members =>
          rw [compactMembers_cons_cons, ih]
          simp [listed, continued, memberChars]

end Lists

section Values

theorem eq_of_writeString_append {text other : String} {rest more : List Char}
    (same : writeString text ++ rest = writeString other ++ more) : text = other ∧ rest = more := by
  have quoted (text : String) (rest : List Char) : writeString text ++ rest =
      '"' :: (text.toList.flatMap escape ++ '"' :: rest) := by
    simp [writeString]
  rw [quoted, quoted, List.cons.injEq] at same
  have read := readString?_flatMap_escape text.toList rest
  rw [same.2, readString?_flatMap_escape, Option.some.injEq, Prod.mk.injEq] at read
  exact ⟨(String.toList_inj.mp read.1).symm, read.2.symm⟩

theorem eq_of_writeNumber_append {number other : Number} (fits : number.Fits)
    (otherFits : other.Fits) {rest more : List Char} (ends : EndsPlain rest)
    (endsMore : EndsPlain more) (same : writeNumber number ++ rest = writeNumber other ++ more) :
    number = other ∧ rest = more := by
  have front := congrArg (List.takeWhile isNumberPart) same
  rw [takeWhile_writeNumber_append fits ends, takeWhile_writeNumber_append otherFits endsMore]
    at front
  obtain rfl := writeNumber_injective fits otherFits front
  exact ⟨rfl, List.append_cancel_left same⟩

theorem determines_member {member : String × Value}
    (own : Determines compactChars Value.NumbersFit member.2) :
    Determines memberChars (fun other => other.2.NumbersFit) member := by
  intro other rest more otherFit ends endsMore same
  rw [memberChars, memberChars, List.append_assoc, List.append_assoc] at same
  obtain ⟨keys, colon⟩ := eq_of_writeString_append same
  obtain ⟨values, behind⟩ := own other.2 _ _ otherFit ends endsMore (List.cons.inj colon).2
  exact ⟨Prod.ext keys values, behind⟩

theorem determines_bool (flag : Bool) :
    Determines compactChars Value.NumbersFit (.bool flag) := by
  intro other rest more otherFit _ _ same
  have kind := kind_eq_of_compactChars_append (.bool flag) otherFit same
  cases other with
  | bool otherFlag =>
      cases flag with
      | true =>
          cases otherFlag with
          | true => exact ⟨rfl, List.append_cancel_left same⟩
          | false => exact absurd (List.cons.inj same).1 (by decide)
      | false =>
          cases otherFlag with
          | true => exact absurd (List.cons.inj same).1 (by decide)
          | false => exact ⟨rfl, List.append_cancel_left same⟩
  | _ => cases kind

theorem determines_array {items : List Value} (fit : ∀ item ∈ items, item.NumbersFit)
    (each : ∀ item ∈ items, Determines compactChars Value.NumbersFit item) :
    Determines compactChars Value.NumbersFit (.array items) := by
  intro other rest more otherFit _ _ same
  have kind := kind_eq_of_compactChars_append (.array fit) otherFit same
  have begins (item : Value) (fit : item.NumbersFit) :
      ∃ c text, compactChars item = c :: text ∧ c ≠ ']' := by
    obtain ⟨c, text, shape, starts⟩ := exists_compactChars_cons fit
    refine ⟨c, text, shape, ?_⟩
    rintro rfl
    cases starts
  cases other with
  | array others =>
      rw [compactChars, compactChars, compactItems_eq_listed, compactItems_eq_listed,
        List.cons_append, List.cons_append, List.append_assoc, List.append_assoc] at same
      obtain ⟨rfl, behind⟩ := eq_of_listed_append (by decide) (by decide) begins each fit
        (fun _ member => otherFit.item member) (List.cons.inj same).2
      exact ⟨rfl, behind⟩
  | _ => cases kind

theorem determines_object {members : Members} (fit : ∀ member ∈ members, member.2.NumbersFit)
    (each : ∀ member ∈ members, Determines compactChars Value.NumbersFit member.2) :
    Determines compactChars Value.NumbersFit (.object members) := by
  intro other rest more otherFit _ _ same
  have kind := kind_eq_of_compactChars_append (.object fit) otherFit same
  have begins (member : String × Value) (_ : member.2.NumbersFit) :
      ∃ c text, memberChars member = c :: text ∧ c ≠ '\x7d' :=
    ⟨'"', _, rfl, by decide⟩
  cases other with
  | object others =>
      rw [compactChars, compactChars, compactMembers_eq_listed, compactMembers_eq_listed,
        List.cons_append, List.cons_append, List.append_assoc, List.append_assoc] at same
      obtain ⟨rfl, behind⟩ := eq_of_listed_append (by decide) (by decide) begins
        (fun member inside => determines_member (each member inside)) fit
        (fun _ inside => otherFit.member inside) (List.cons.inj same).2
      exact ⟨rfl, behind⟩
  | _ => cases kind

/-- The text of a value tells where it ends and which value it is. -/
theorem determines_value {value : Value} (fit : value.NumbersFit) :
    Determines compactChars Value.NumbersFit value := by
  induction fit with
  | null =>
      intro other rest more otherFit _ _ same
      have kind := kind_eq_of_compactChars_append .null otherFit same
      cases other with
      | null => exact ⟨rfl, List.append_cancel_left same⟩
      | _ => cases kind
  | bool flag => exact determines_bool flag
  | number fits =>
      intro other rest more otherFit ends endsMore same
      have kind := kind_eq_of_compactChars_append (.number fits) otherFit same
      cases other with
      | number other =>
          obtain ⟨rfl, behind⟩ := eq_of_writeNumber_append fits otherFit.fits ends endsMore same
          exact ⟨rfl, behind⟩
      | _ => cases kind
  | string text =>
      intro other rest more otherFit _ _ same
      have kind := kind_eq_of_compactChars_append (.string text) otherFit same
      cases other with
      | string otherText =>
          obtain ⟨rfl, behind⟩ := eq_of_writeString_append same
          exact ⟨rfl, behind⟩
      | _ => cases kind
  | array each ih => exact determines_array each ih
  | object each ih => exact determines_object each ih

/-- Values whose numbers fit have the same compact text only if they are the same. -/
theorem compact_inj {value other : Value} (fit : value.NumbersFit) (otherFit : other.NumbersFit) :
    compact value = compact other ↔ value = other := by
  refine ⟨fun same => ?_, congrArg compact⟩
  have texts : compactChars value ++ [] = compactChars other ++ [] :=
    congrArg (· ++ []) (String.ofList_inj.mp same)
  have ends : EndsPlain [] := fun c member => by cases member
  exact (determines_value fit other [] [] otherFit ends ends texts).1

end Values

end ApiAssembly.Json
