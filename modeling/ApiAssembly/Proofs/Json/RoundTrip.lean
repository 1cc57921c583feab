import ApiAssembly.Proofs.Json.NumberText

/-!
# Reading compact JSON

The compact text of a value is read as the value, member by member and item by item, apart from
the floating-point numbers in it: each of them is read as what its own text is read as.  So
the value is read back exactly if each of its floating-point numbers is.
-/

namespace ApiAssembly.Json

section Strings

theorem hexUnit?_control : ∀ n < 0x20,
    hexUnit? '0' '0' (n / 16).digitChar (n % 16).digitChar = some n := by
  decide

/-- An escaped character is read as this character. -/
theorem readString?_escape_append (c : Char) (rest : List Char) :
    readString? (escape c ++ rest) =
      (readString? rest).map fun (text, after) => (c :: text, after) := by
  have simple {letter : Char} (noUnit : letter ≠ 'u') (meaning : simpleEscape? letter = some c) :
      readString? ('\\' :: letter :: rest) =
        (readString? rest).map fun (text, after) => (c :: text, after) := by
    rw [readString?.eq_4, meaning]
    · cases readString? rest <;> rfl
    · intro _ _ _ _ _ same
      exact absurd same noUnit
  rw [escape]
  split
  next same => exact simple (by decide) (by rw [same]; rfl)
  split
  next same => exact simple (by decide) (by rw [same]; rfl)
  split
  next same => exact simple (by decide) (by rw [same]; rfl)
  split
  next same => exact simple (by decide) (by rw [same]; rfl)
  split
  next same => exact simple (by decide) (by rw [same]; rfl)
  split
  next same => exact simple (by decide) (by rw [same]; rfl)
  split
  next same => exact simple (by decide) (by rw [same]; rfl)
  split
  next control =>
    have unit := hexUnit?_control c.toNat control
    have noLow : ¬(0xDC00 ≤ c.toNat ∧ c.toNat ≤ 0xDFFF) := by omega
    have noHigh : ¬(0xD800 ≤ c.toNat ∧ c.toNat ≤ 0xDBFF) := by omega
    simp only [List.cons_append, List.nil_append]
    rw [readString?, unit]
    simp only [Option.bind_eq_bind, Option.bind_some, if_neg noLow, if_neg noHigh, Char.ofNat_toNat]
    cases readString? rest <;> rfl
  next noQuote noBackslash _ _ _ _ _ printable =>
    rw [List.singleton_append, readString?.eq_5, if_neg (not_or.mpr ⟨printable, noBackslash⟩)]
    · cases readString? rest <;> rfl
    · exact noQuote
    · intro _ _ _ _ _ same
      exact absurd same noBackslash
    · intro _ _ same
      exact absurd same noBackslash

theorem readString?_flatMap_escape (text rest : List Char) :
    readString? (text.flatMap escape ++ '"' :: rest) = some (text, rest) := by
  induction text with
  | nil => rfl
  | cons c text ih =>
      rw [List.flatMap_cons, List.append_assoc, readString?_escape_append, ih]
      rfl

end Strings

section Beginnings

variable {value : Value} {c : Char} {text rest : List Char} {fuel levels : Nat}

/-- The characters with which a value begins. -/
def startsValue (c : Char) : Bool :=
  c.isDigit || c = '-' || c = 'n' || c = 't' || c = 'f' || c = '"' || c = '[' || c = '\x7b'

theorem isSpace_of_startsValue (starts : startsValue c = true) : isSpace c = false := by
  rw [Bool.eq_false_iff]
  intro space
  simp only [isSpace, Bool.or_eq_true, decide_eq_true_eq] at space
  rcases space with ((rfl | rfl) | rfl) | rfl <;> cases starts

theorem skipSpace_of_startsValue (starts : startsValue c = true) (text : List Char) :
    skipSpace (c :: text) = c :: text :=
  List.dropWhile_cons_of_neg (by simp [isSpace_of_startsValue starts])

theorem exists_writeNumber_cons {number : Number} (fits : number.Fits) :
    ∃ c rest, writeNumber number = c :: rest ∧ (c.isDigit = true ∨ c = '-') := by
  obtain ⟨negative, text, shape, whole, fraction, exponent, parts⟩ :=
    exists_isUnsigned_writeNumber fits
  have whole := parts [] endsNumber_nil
  rw [List.append_nil] at whole
  obtain ⟨digit, more, rfl, isDigit⟩ := whole.exists_digit
  rw [shape]
  cases negative with
  | true => exact ⟨'-', _, rfl, .inr rfl⟩
  | false => exact ⟨digit, more, rfl, .inl isDigit⟩

theorem exists_compactChars_cons (fit : value.NumbersFit) :
    ∃ c rest, compactChars value = c :: rest ∧ startsValue c = true := by
  cases value with
  | null => exact ⟨'n', _, rfl, rfl⟩
  | bool flag => cases flag <;> exact ⟨_, _, rfl, rfl⟩
  | number number =>
      obtain ⟨c, rest, shape, starts⟩ := exists_writeNumber_cons fit.fits
      refine ⟨c, rest, shape, ?_⟩
      rcases starts with digit | rfl
      · simp [startsValue, digit]
      · rfl
  | string text => exact ⟨'"', _, rfl, rfl⟩
  | array items => exact ⟨'[', _, rfl, rfl⟩
  | object members => exact ⟨'\x7b', _, rfl, rfl⟩

theorem exists_compactItems_cons (fit : value.NumbersFit) (items : List Value) :
    ∃ c rest, compactItems (value :: items) = c :: rest ∧ startsValue c = true := by
  obtain ⟨c, rest, shape, starts⟩ := exists_compactChars_cons fit
  cases items with
  | nil => exact ⟨c, rest, by rw [compactItems, shape], starts⟩
  | cons next items =>
      refine ⟨c, rest ++ ',' :: compactItems (next :: items), ?_, starts⟩
      rw [compactItems, shape, List.cons_append]
      simp

/-- A written value stands without white space in front of it. -/
theorem skipSpace_compactChars (fit : value.NumbersFit) (rest : List Char) :
    skipSpace (compactChars value ++ rest) = compactChars value ++ rest := by
  obtain ⟨c, more, begins, starts⟩ := exists_compactChars_cons fit
  rw [begins]
  exact skipSpace_of_startsValue starts _

theorem skipSpace_compactItems (fit : value.NumbersFit) (items : List Value) (rest : List Char) :
    skipSpace (compactItems (value :: items) ++ rest) = compactItems (value :: items) ++ rest := by
  obtain ⟨c, more, begins, starts⟩ := exists_compactItems_cons fit items
  rw [begins]
  exact skipSpace_of_startsValue starts _

theorem ne_of_isDigit_or {other : Char} (numeric : c.isDigit = true ∨ c = '-')
    (noDigit : other.isDigit = false) (noMinus : other ≠ '-') : c ≠ other := by
  rintro rfl
  rcases numeric with digit | rfl
  · rw [digit] at noDigit
    cases noDigit
  · exact noMinus rfl

/-- What begins with a digit or a minus is a number. -/
theorem readValue?_of_isDigit_or (numeric : c.isDigit = true ∨ c = '-') :
    readValue? (fuel + 1) levels (c :: text) =
      (readNumber? (c :: text)).map fun (number, after) => (.number number, after) := by
  have other {letter : Char} (noDigit : letter.isDigit = false) (noMinus : letter ≠ '-') :=
    ne_of_isDigit_or numeric noDigit noMinus
  have plain : readPlain? (c :: text) =
      (readNumber? (c :: text)).map fun (number, after) => (.number number, after) := by
    rw [readPlain?.eq_def]
    split
    next same => exact absurd (List.cons.inj same).1 (other (by decide) (by decide))
    next same => exact absurd (List.cons.inj same).1 (other (by decide) (by decide))
    next same => exact absurd (List.cons.inj same).1 (other (by decide) (by decide))
    next => rfl
  rw [readValue?.eq_def]
  simp only
  split
  next same => exact absurd (List.cons.inj same).1 (other (by decide) (by decide))
  next same => exact absurd (List.cons.inj same).1 (other (by decide) (by decide))
  next same => exact absurd (List.cons.inj same).1 (other (by decide) (by decide))
  next => exact plain

theorem readValue?_string (text : String) :
    readValue? (fuel + 1) levels (writeString text ++ rest) = some (.string text, rest) := by
  have read := readString?_flatMap_escape text.toList rest
  rw [writeString, List.cons_append, List.cons_append, List.append_assoc, List.singleton_append,
    readValue?, read]
  simp only [Option.bind_eq_bind, Option.bind_some, String.ofList_toList]
  rfl

/-- An array with items is read item by item. -/
theorem readValue?_bracket (inhabited : (skipSpace text).head? ≠ some ']') :
    readValue? (fuel + 1) (levels + 1) ('[' :: text) =
      (readItems? fuel levels (skipSpace text)).map
        fun (items, after) => (.array items, after) := by
  rw [readValue?]
  simp only
  split
  next closed =>
    rw [closed] at inhabited
    exact absurd rfl inhabited
  next => cases readItems? fuel levels (skipSpace text) <;> rfl

/-- An object with members is read member by member. -/
theorem readValue?_brace (inhabited : (skipSpace text).head? ≠ some '\x7d') :
    readValue? (fuel + 1) (levels + 1) ('\x7b' :: text) =
      (readMembers? fuel levels [] (skipSpace text)).map fun (members, after) =>
        (.object members, after) := by
  rw [readValue?]
  simp only
  split
  next closed =>
    rw [closed] at inhabited
    exact absurd rfl inhabited
  next => cases readMembers? fuel levels [] (skipSpace text) <;> rfl

end Beginnings

section Values

mutual

/-- What the compact text of a value is read as. -/
def rereadValue? : Value → Option Value
  | .number number => (reread? number).map .number
  | .array items => (rereadItems? items).map .array
  | .object members => (rereadMembers? members).map .object
  | scalar => some scalar

def rereadItems? : List Value → Option (List Value)
  | [] => some []
  | item :: rest => do return (← rereadValue? item) :: (← rereadItems? rest)

def rereadMembers? : List (String × Value) → Option (List (String × Value))
  | [] => some []
  | (key, value) :: rest => do
    return (key, ← rereadValue? value) :: (← rereadMembers? rest)

end

variable {items : List Value} {members before : Members} {item value : Value} {key : String}
  {fuel levels : Nat} {rest : List Char}

theorem endsNumber_comma (rest : List Char) : EndsNumber (',' :: rest) := by
  intro c member
  cases member
  decide

theorem endsNumber_bracket (rest : List Char) : EndsNumber (']' :: rest) := by
  intro c member
  cases member
  decide

theorem endsNumber_brace (rest : List Char) : EndsNumber ('\x7d' :: rest) := by
  intro c member
  cases member
  decide

/-- A value is read from its compact text, whatever follows that is no part of a number. -/
def ReadsCompact (value : Value) : Prop :=
  ∀ (fuel levels : Nat) (rest : List Char), 2 * (compactChars value).length ≤ fuel →
    value.depth ≤ levels → EndsNumber rest →
    readValue? fuel levels (compactChars value ++ rest) =
      (rereadValue? value).map fun found => (found, rest)

theorem readItems?_compact (fit : ∀ item ∈ items, item.NumbersFit)
    (reads : ∀ item ∈ items, ReadsCompact item) (inhabited : items ≠ [])
    (enough : 2 * (compactItems items).length + 1 ≤ fuel)
    (nested : Value.itemsDepth items ≤ levels) :
    readItems? fuel levels (compactItems items ++ ']' :: rest) =
      (rereadItems? items).map fun found => (found, rest) := by
  induction items generalizing fuel with
  | nil => exact absurd rfl inhabited
  | cons item items ih =>
      rw [List.forall_mem_cons] at fit reads
      rw [Value.itemsDepth, Nat.max_le] at nested
      obtain ⟨fuel, rfl⟩ := Nat.exists_eq_add_of_le' (Nat.le_of_add_left_le enough)
      cases items with
      | nil =>
          have first := reads.1 fuel levels _ (Nat.le_of_succ_le_succ enough) nested.1
            (endsNumber_bracket rest)
          rw [compactItems, readItems?, first, rereadItems?, rereadItems?]
          cases rereadValue? item <;> rfl
      | cons next items =>
          have shape : compactItems (item :: next :: items) =
              compactChars item ++ ',' :: compactItems (next :: items) := by
            rw [compactItems]
            simp
          rw [shape, List.length_append, List.length_cons] at enough
          have first := reads.1 fuel levels _ (by omega) nested.1
            (endsNumber_comma (compactItems (next :: items) ++ ']' :: rest))
          have later := ih fit.2 reads.2 (List.cons_ne_nil _ _) (by omega : _ ≤ fuel) nested.2
          have gap := skipSpace_compactItems (fit.2 next List.mem_cons_self) items (']' :: rest)
          rw [shape, List.append_assoc, List.cons_append, readItems?, first, rereadItems?]
          cases rereadValue? item with
          | none => rfl
          | some found =>
              change (readItems? fuel levels (skipSpace (compactItems (next :: items) ++
                ']' :: rest))).bind _ = _
              rw [gap, later]
              cases rereadItems? (next :: items) <;> rfl

/-- What is read of a member is what is read of its value. -/
theorem readMembers?_member {text : List Char} (gap : skipSpace text = text) :
    (readValue? fuel levels text = none →
      readMembers? (fuel + 1) levels before (writeString key ++ ':' :: text) = none) ∧
    (∀ value, readValue? fuel levels text = some (value, '\x7d' :: rest) →
      readMembers? (fuel + 1) levels before (writeString key ++ ':' :: text) =
        some (Entries.put key value before, rest)) ∧
    (∀ value, readValue? fuel levels text = some (value, ',' :: rest) →
      readMembers? (fuel + 1) levels before (writeString key ++ ':' :: text) =
        readMembers? fuel levels (Entries.put key value before) (skipSpace rest)) := by
  have opened : writeString key ++ ':' :: text =
      '"' :: (key.toList.flatMap escape ++ '"' :: ':' :: text) := by
    simp [writeString]
  have colon : skipSpace (':' :: text) = ':' :: text := rfl
  rw [opened, readMembers?, readString?_flatMap_escape]
  simp only [Option.bind_eq_bind, Option.bind_some, colon, gap, String.ofList_toList]
  refine ⟨fun read => ?_, fun value read => ?_, fun value read => ?_⟩
  · rw [read]
    rfl
  · rw [read]
    rfl
  · rw [read]
    rfl

theorem compactMembers_cons_cons (key : String) (value : Value) (next : String × Value)
    (members : Members) : compactMembers ((key, value) :: next :: members) =
      writeString key ++
        ':' :: (compactChars value ++ ',' :: compactMembers (next :: members)) := by
  rw [compactMembers]
  · simp only [List.append_assoc, List.cons_append]
  · exact List.cons_ne_nil next members

theorem exists_compactMembers_cons (member : String × Value) (members : Members) :
    ∃ rest, compactMembers (member :: members) = '"' :: rest := by
  obtain ⟨key, value⟩ := member
  cases members with
  | nil => exact ⟨_, by rw [compactMembers, writeString, List.cons_append, List.cons_append]⟩
  | cons next members =>
      exact ⟨_, by rw [compactMembers_cons_cons, writeString, List.cons_append, List.cons_append]⟩

theorem skipSpace_compactMembers (member : String × Value) (members : Members)
    (rest : List Char) : skipSpace (compactMembers (member :: members) ++ rest) =
      compactMembers (member :: members) ++ rest := by
  obtain ⟨more, begins⟩ := exists_compactMembers_cons member members
  rw [begins]
  exact skipSpace_of_startsValue rfl _

theorem readMembers?_compact (fit : ∀ member ∈ members, member.2.NumbersFit)
    (reads : ∀ member ∈ members, ReadsCompact member.2) (inhabited : members ≠ [])
    (distinct : (Entries.keys (before ++ members)).Nodup)
    (enough : 2 * (compactMembers members).length + 1 ≤ fuel)
    (nested : Value.membersDepth members ≤ levels) :
    readMembers? fuel levels before (compactMembers members ++ '\x7d' :: rest) =
      (rereadMembers? members).map fun found => (before ++ found, rest) := by
  induction members generalizing fuel before with
  | nil => exact absurd rfl inhabited
  | cons member members ih =>
      obtain ⟨key, value⟩ := member
      rw [List.forall_mem_cons] at fit reads
      rw [Value.membersDepth, Nat.max_le] at nested
      obtain ⟨fuel, rfl⟩ := Nat.exists_eq_add_of_le' (Nat.le_of_add_left_le enough)
      have absent : key ∉ Entries.keys before := by
        rw [Entries.keys_append, List.nodup_append] at distinct
        exact fun member => distinct.2.2 key member key List.mem_cons_self rfl
      have gap := skipSpace_compactChars fit.1
      cases members with
      | nil =>
          rw [compactMembers, List.length_append, List.length_cons] at enough
          have first := reads.1 fuel levels _ (by dsimp only; omega) nested.1
            (endsNumber_brace rest)
          obtain ⟨fails, last, -⟩ :=
            @readMembers?_member before key fuel levels rest _ (gap ('\x7d' :: rest))
          rw [compactMembers, List.append_assoc, List.cons_append, rereadMembers?, rereadMembers?]
          cases found : rereadValue? value with
          | none =>
              rw [found] at first
              exact fails first
          | some read =>
              rw [found] at first
              rw [last read first, Entries.put_of_not_mem absent]
              rfl
      | cons next members =>
          rw [compactMembers_cons_cons, List.length_append, List.length_cons, List.length_append,
            List.length_cons] at enough
          have first := reads.1 fuel levels _ (by dsimp only; omega) nested.1
            (endsNumber_comma (compactMembers (next :: members) ++ '\x7d' :: rest))
          obtain ⟨fails, -, goesOn⟩ := @readMembers?_member before key fuel levels
            (compactMembers (next :: members) ++ '\x7d' :: rest) _ (gap _)
          rw [compactMembers_cons_cons, List.append_assoc, List.cons_append, List.append_assoc,
            List.cons_append, rereadMembers?]
          cases found : rereadValue? value with
          | none =>
              rw [found] at first
              exact fails first
          | some read =>
              have sameKeys :
                  (Entries.keys ((before ++ [(key, read)]) ++ next :: members)).Nodup := by
                simpa using distinct
              have later := @ih (before ++ [(key, read)]) fuel fit.2 reads.2 (List.cons_ne_nil _ _)
                sameKeys (by omega) nested.2
              rw [found] at first
              rw [goesOn read first, Entries.put_of_not_mem absent,
                skipSpace_compactMembers next members, later]
              cases rereadMembers? (next :: members) with
              | none => rfl
              | some others => simp

/-- A value that one step reads, whatever follows. -/
theorem readsCompact_of_step (fit : value.NumbersFit)
    (step : ∀ (fuel levels : Nat) (rest : List Char),
      readValue? (fuel + 1) levels (compactChars value ++ rest) =
        (rereadValue? value).map fun found => (found, rest)) : ReadsCompact value := by
  intro fuel levels rest enough _ _
  obtain ⟨c, more, begins, -⟩ := exists_compactChars_cons fit
  rw [begins, List.length_cons] at enough
  obtain ⟨fuel, rfl⟩ := Nat.exists_eq_add_of_le' (by omega : 1 ≤ fuel)
  exact step fuel levels rest

theorem readsCompact_number {number : Number} (fits : number.Fits) :
    ReadsCompact (.number number) := by
  intro fuel levels rest enough _ ends
  obtain ⟨c, more, shape, numeric⟩ := exists_writeNumber_cons fits
  have read := readNumber?_writeNumber fits ends
  change 2 * (writeNumber number).length ≤ fuel at enough
  change readValue? fuel levels (writeNumber number ++ rest) = _
  rw [shape, List.length_cons] at enough
  rw [shape, List.cons_append] at read ⊢
  obtain ⟨fuel, rfl⟩ := Nat.exists_eq_add_of_le' (by omega : 1 ≤ fuel)
  rw [readValue?_of_isDigit_or numeric, read, rereadValue?]
  cases reread? number <;> rfl

theorem readsCompact_array (fit : ∀ item ∈ items, item.NumbersFit)
    (reads : ∀ item ∈ items, ReadsCompact item) : ReadsCompact (.array items) := by
  intro fuel levels rest enough nested ends
  rw [compactChars, List.length_append, List.length_cons, List.length_singleton] at enough
  rw [Value.depth] at nested
  obtain ⟨fuel, rfl⟩ := Nat.exists_eq_add_of_le' (by omega : 1 ≤ fuel)
  obtain ⟨levels, rfl⟩ := Nat.exists_eq_add_of_le' (Nat.le_of_add_left_le nested)
  rw [compactChars, List.append_assoc, List.cons_append, List.singleton_append]
  cases items with
  | nil => rfl
  | cons item items =>
      have read := @readItems?_compact (item :: items) fuel levels rest fit reads
        (List.cons_ne_nil _ _) (by omega) (Nat.le_of_succ_le_succ nested)
      obtain ⟨c, more, shape, starts⟩ :=
        exists_compactItems_cons (fit item List.mem_cons_self) items
      have gap := skipSpace_of_startsValue starts (more ++ ']' :: rest)
      have inhabited : (skipSpace (c :: (more ++ ']' :: rest))).head? ≠ some ']' := by
        rw [gap]
        rintro same
        cases same
        cases starts
      rw [shape, List.cons_append] at read ⊢
      rw [readValue?_bracket inhabited, gap, read, rereadValue?]
      cases rereadItems? (item :: items) <;> rfl

theorem readsCompact_object (distinct : (Entries.keys members).Nodup)
    (fit : ∀ member ∈ members, member.2.NumbersFit)
    (reads : ∀ member ∈ members, ReadsCompact member.2) : ReadsCompact (.object members) := by
  intro fuel levels rest enough nested ends
  rw [compactChars, List.length_append, List.length_cons, List.length_singleton] at enough
  rw [Value.depth] at nested
  obtain ⟨fuel, rfl⟩ := Nat.exists_eq_add_of_le' (by omega : 1 ≤ fuel)
  obtain ⟨levels, rfl⟩ := Nat.exists_eq_add_of_le' (Nat.le_of_add_left_le nested)
  rw [compactChars, List.append_assoc, List.cons_append, List.singleton_append]
  cases members with
  | nil => rfl
  | cons first members =>
      have read := @readMembers?_compact (first :: members) [] fuel levels rest fit reads
        (List.cons_ne_nil _ _) distinct (by omega) (Nat.le_of_succ_le_succ nested)
      obtain ⟨more, shape⟩ := exists_compactMembers_cons first members
      have gap := skipSpace_of_startsValue (c := '"') rfl (more ++ '\x7d' :: rest)
      have inhabited : (skipSpace ('"' :: (more ++ '\x7d' :: rest))).head? ≠ some '\x7d' := by
        rw [gap]
        exact fun same => absurd (Option.some.inj same) (by decide)
      rw [shape, List.cons_append] at read ⊢
      rw [readValue?_brace inhabited, gap, read, rereadValue?]
      cases rereadMembers? (first :: members) <;> rfl

theorem readsCompact (wellKeyed : value.WellKeyed) (fit : value.NumbersFit) :
    ReadsCompact value := by
  induction wellKeyed with
  | null =>
      exact readsCompact_of_step fit fun _ _ _ => rfl
  | bool flag =>
      exact readsCompact_of_step fit fun _ _ _ => by cases flag <;> rfl
  | string text =>
      exact readsCompact_of_step fit fun _ _ _ => readValue?_string text
  | number number => exact readsCompact_number fit.fits
  | array _ ih =>
      exact readsCompact_array (fun _ member => fit.item member)
        fun item member => ih item member (fit.item member)
  | object distinct _ ih =>
      exact readsCompact_object distinct (fun _ inside => fit.member inside)
        fun member inside => ih member inside (fit.member inside)

/-- There is fuel enough for the whole text. -/
theorem readValue?_compactChars (data : value.IsData) (shallow : value.depth ≤ nestingLimit) :
    readValue? (2 * (compactChars value).length + 2) nestingLimit (compactChars value) =
      (rereadValue? value).map fun found => (found, []) := by
  have read := readsCompact data.wellKeyed data.fit (2 * (compactChars value).length + 2)
    nestingLimit [] (Nat.le_add_right _ 2) shallow endsNumber_nil
  rwa [List.append_nil] at read

/-- The compact text of a value is read number by number. -/
theorem read?_compact (data : value.IsData) (shallow : value.depth ≤ nestingLimit) :
    read? (compact value) = rereadValue? value := by
  have gap := skipSpace_compactChars data.fit []
  rw [List.append_nil] at gap
  rw [read?, readWithin?, compact, String.toList_ofList, gap, readValue?_compactChars data shallow]
  cases rereadValue? value <;> rfl

end Values

section Floats

/-- Each floating-point number within the value is read back from its text. -/
inductive FloatsKept : Value → Prop
  | null : FloatsKept .null
  | bool (value : Bool) : FloatsKept (.bool value)
  | whole (value : Int) : FloatsKept (.number (.whole value))
  | float {value : Decimal.Binary64}
      (kept : readNumber? (writeNumber (.float value)) = some (.float value, [])) :
      FloatsKept (.number (.float value))
  | string (text : String) : FloatsKept (.string text)
  | array {items : List Value} (each : ∀ item ∈ items, FloatsKept item) : FloatsKept (.array items)
  | object {members : Members} (each : ∀ member ∈ members, FloatsKept member.2) :
      FloatsKept (.object members)

variable {items : List Value} {members : Members} {value : Value}

theorem floatsKept_array_iff :
    FloatsKept (.array items) ↔ ∀ item ∈ items, FloatsKept item := by
  constructor
  · rintro (_ | _ | _ | _ | _ | each)
    exact each
  · exact .array

theorem floatsKept_object_iff :
    FloatsKept (.object members) ↔ ∀ member ∈ members, FloatsKept member.2 := by
  constructor
  · rintro (_ | _ | _ | _ | _ | _ | each)
    exact each
  · exact .object

theorem rereadItems?_eq_self_iff :
    rereadItems? items = some items ↔ ∀ item ∈ items, rereadValue? item = some item := by
  induction items with
  | nil => simp [rereadItems?]
  | cons item items ih =>
      rw [List.forall_mem_cons, ← ih, rereadItems?]
      cases rereadValue? item <;> cases rereadItems? items <;> simp

theorem rereadMembers?_eq_self_iff : rereadMembers? members = some members ↔
    ∀ member ∈ members, rereadValue? member.2 = some member.2 := by
  induction members with
  | nil => simp [rereadMembers?]
  | cons member members ih =>
      obtain ⟨key, value⟩ := member
      rw [List.forall_mem_cons, ← ih, rereadMembers?]
      cases rereadValue? value <;> cases rereadMembers? members <;> simp

theorem rereadValue?_float_iff {value : Decimal.Binary64} (fits : (Number.float value).Fits) :
    rereadValue? (.number (.float value)) = some (.number (.float value)) ↔
      FloatsKept (.number (.float value)) := by
  have read := readNumber?_writeNumber fits endsNumber_nil
  rw [List.append_nil] at read
  rw [rereadValue?]
  constructor
  · intro same
    obtain ⟨number, found, same⟩ := Option.map_eq_some_iff.mp same
    cases same
    refine .float ?_
    rw [read, found]
    rfl
  · rintro (_ | _ | _ | kept)
    rw [reread?, kept]
    rfl

/-- A value is read back exactly if its floating-point numbers are. -/
theorem rereadValue?_eq_self_iff (fit : value.NumbersFit) :
    rereadValue? value = some value ↔ FloatsKept value := by
  induction fit with
  | null => exact iff_of_true rfl .null
  | bool flag => exact iff_of_true rfl (.bool flag)
  | string text => exact iff_of_true rfl (.string text)
  | @number number fits =>
      cases number with
      | whole number =>
          refine iff_of_true ?_ (.whole number)
          rw [rereadValue?, reread?_whole fits]
          rfl
      | float number => exact rereadValue?_float_iff fits
  | @array items _ ih =>
      have each : rereadItems? items = some items ↔ ∀ item ∈ items, FloatsKept item := by
        rw [rereadItems?_eq_self_iff]
        exact forall₂_congr ih
      rw [floatsKept_array_iff, ← each, rereadValue?]
      cases rereadItems? items <;> simp
  | @object members _ ih =>
      have each : rereadMembers? members = some members ↔
          ∀ member ∈ members, FloatsKept member.2 := by
        rw [rereadMembers?_eq_self_iff]
        exact forall₂_congr ih
      rw [floatsKept_object_iff, ← each, rereadValue?]
      cases rereadMembers? members <;> simp

end Floats

end ApiAssembly.Json
