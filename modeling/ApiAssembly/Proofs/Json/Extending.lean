import ApiAssembly.Proofs.Json.RoundTrip

/-!
# Where reading stops

A value is read up to its end, so more text behind it changes nothing; only a number must not
end with the text, since more digits could follow.  So the text of a string, an array or an
object that is cut off anywhere is no JSON: what was read of it would be read of the whole
text too, with the part that is cut off left over.
-/

namespace ApiAssembly.Json

section Strings

theorem readString?_append {text content rest : List Char}
    (found : readString? text = some (content, rest)) (more : List Char) :
    readString? (text ++ more) = some (content, rest ++ more) := by
  fun_induction readString? text generalizing content rest with
  | case1 => cases found
  | case2 =>
      cases found
      rfl
  | case3 a b c d text pair plain =>
      obtain ⟨unit, value, found⟩ := Option.bind_eq_some_iff.mp found
      rw [List.cons_append, List.cons_append, List.cons_append, List.cons_append, List.cons_append,
        List.cons_append, readString?, value, Option.bind_eq_bind, Option.bind_some]
      split at found
      · cases found
      next noLow =>
        rw [if_neg noLow]
        split at found
        next high =>
          rw [if_pos high]
          split at found
          next e f g h text =>
            obtain ⟨low, lowValue, found⟩ := Option.bind_eq_some_iff.mp found
            obtain ⟨joined, character, found⟩ := Option.bind_eq_some_iff.mp found
            obtain ⟨⟨inner, after⟩, read, same⟩ := Option.bind_eq_some_iff.mp found
            cases same
            simp only [List.cons_append, lowValue, character, pair read, Option.bind_eq_bind,
              Option.bind_some]
            rfl
          · cases found
        next noHigh =>
          obtain ⟨⟨inner, after⟩, read, same⟩ := Option.bind_eq_some_iff.mp found
          cases same
          rw [if_neg noHigh, plain read]
          rfl
  | case4 c text noUnit ih =>
      obtain ⟨escaped, meaning, found⟩ := Option.bind_eq_some_iff.mp found
      obtain ⟨⟨inner, after⟩, read, same⟩ := Option.bind_eq_some_iff.mp found
      cases same
      rw [List.cons_append, List.cons_append, readString?.eq_4, meaning, ih read]
      · rfl
      · rintro _ _ _ _ _ rfl
        cases meaning
  | case5 => cases found
  | case6 c text noQuote _ noEscape printable ih =>
      obtain ⟨⟨inner, after⟩, read, same⟩ := Option.bind_eq_some_iff.mp found
      cases same
      have noBackslash : c ≠ '\\' := fun same => printable (.inr same)
      rw [List.cons_append, readString?.eq_5, if_neg printable, ih read]
      · rfl
      · exact noQuote
      · intro _ _ _ _ _ same
        exact absurd same noBackslash
      · intro _ _ same
        exact absurd same noBackslash

end Strings

section Values

variable {fuel steps levels : Nat} {text rest : List Char} {number : Number} {value : Value}

theorem readNumber?_append (found : readNumber? text = some (number, rest)) (left : rest ≠ [])
    (more : List Char) : readNumber? (text ++ more) = some (number, rest ++ more) := by
  have unsigned {negative : Bool} {text : List Char}
      (found : readUnsigned? negative text = some (number, rest)) :
      readNumber? ((if negative then ['-'] else []) ++ (text ++ more)) =
        some (number, rest ++ more) := by
    obtain ⟨whole, fraction, exponent, parts, same⟩ := exists_parts_of_readUnsigned? found
    rw [(parts.append left more).readNumber?_eq negative, same]
    rfl
  rw [readNumber?.eq_def] at found
  split at found
  · exact unsigned found
  · exact unsigned found

/-- What is read as a number begins with a digit or a minus. -/
theorem exists_cons_of_readNumber? (found : readNumber? text = some (number, rest)) :
    ∃ c more, text = c :: more ∧ (c.isDigit = true ∨ c = '-') := by
  rw [readNumber?.eq_def] at found
  split at found
  next more => exact ⟨'-', more, rfl, .inr rfl⟩
  · obtain ⟨whole, fraction, exponent, parts, -⟩ := exists_parts_of_readUnsigned? found
    obtain ⟨digit, more, shape, isDigit⟩ := parts.exists_digit
    exact ⟨digit, more, shape, .inl isDigit⟩

theorem skipSpace_append (inhabited : skipSpace text ≠ []) (more : List Char) :
    skipSpace (text ++ more) = skipSpace text ++ more := by
  rw [skipSpace, List.dropWhile_append, if_neg (by rwa [List.isEmpty_iff])]
  rfl

/-- Something follows a text of which more is left than blanks. -/
theorem ne_nil_of_skipSpace (inhabited : skipSpace text ≠ []) : text ≠ [] := by
  rintro rfl
  exact inhabited rfl

theorem ne_nil_of_readValue? (found : readValue? fuel levels text = some (value, rest)) :
    text ≠ [] := by
  rintro rfl
  cases fuel <;> cases found

theorem ne_nil_of_readItems? {items : List Value}
    (found : readItems? fuel levels text = some (items, rest)) : text ≠ [] := by
  cases fuel with
  | zero => cases found
  | succ fuel =>
      rw [readItems?] at found
      obtain ⟨⟨item, after⟩, first, -⟩ := Option.bind_eq_some_iff.mp found
      exact ne_nil_of_readValue? first

theorem ne_nil_of_readMembers? {before members : Members}
    (found : readMembers? fuel levels before text = some (members, rest)) : text ≠ [] := by
  rintro rfl
  cases fuel <;> cases found

/-- What is read with a number of steps is read with more of them too, whatever follows. -/
structure ReadsFurther (fuel : Nat) : Prop where
  value {steps levels : Nat} {text rest : List Char} {value : Value} (enough : fuel ≤ steps)
    (found : readValue? fuel levels text = some (value, rest))
    (left : (∃ number, value = .number number) → rest ≠ []) (more : List Char) :
    readValue? steps levels (text ++ more) = some (value, rest ++ more)
  items {steps levels : Nat} {text rest : List Char} {items : List Value} (enough : fuel ≤ steps)
    (found : readItems? fuel levels text = some (items, rest)) (more : List Char) :
    readItems? steps levels (text ++ more) = some (items, rest ++ more)
  members {steps levels : Nat} {text rest : List Char} {before members : Members}
    (enough : fuel ≤ steps)
    (found : readMembers? fuel levels before text = some (members, rest)) (more : List Char) :
    readMembers? steps levels before (text ++ more) = some (members, rest ++ more)

theorem readPlain?_append (found : readPlain? text = some (value, rest))
    (left : (∃ number, value = .number number) → rest ≠ []) (more : List Char) :
    readValue? (steps + 1) levels (text ++ more) = some (value, rest ++ more) := by
  rw [readPlain?.eq_def] at found
  split at found
  · cases found
    rfl
  · cases found
    rfl
  · cases found
    rfl
  · obtain ⟨⟨number, after⟩, read, same⟩ := Option.map_eq_some_iff.mp found
    cases same
    have whole := readNumber?_append read (left ⟨number, rfl⟩) more
    obtain ⟨c, text, rfl, numeric⟩ := exists_cons_of_readNumber? read
    rw [List.cons_append] at whole ⊢
    rw [readValue?_of_isDigit_or numeric, whole]
    rfl

/-- A group that does not close at once does not either if the text goes on. -/
theorem head?_skipSpace_append {closing : Char} (inhabited : skipSpace text ≠ [])
    (opened : ∀ after, skipSpace text = closing :: after → False) (more : List Char) :
    (skipSpace (text ++ more)).head? ≠ some closing := by
  rw [skipSpace_append inhabited]
  obtain ⟨first, others, inside⟩ := List.exists_cons_of_ne_nil inhabited
  rw [inside]
  rintro same
  cases same
  exact opened others inside

theorem ReadsFurther.nextValue (reads : ReadsFurther fuel) (enough : fuel + 1 ≤ steps)
    (found : readValue? (fuel + 1) levels text = some (value, rest))
    (left : (∃ number, value = .number number) → rest ≠ []) (more : List Char) :
    readValue? steps levels (text ++ more) = some (value, rest ++ more) := by
  obtain ⟨steps, rfl⟩ := Nat.exists_eq_add_of_le' (Nat.le_of_add_left_le enough)
  have enough := Nat.le_of_succ_le_succ enough
  rw [readValue?.eq_def] at found
  simp only at found
  split at found
  · obtain ⟨⟨content, after⟩, read, same⟩ := Option.bind_eq_some_iff.mp found
    cases same
    rw [List.cons_append, readValue?, readString?_append read more]
    rfl
  next text =>
    rw [List.cons_append]
    split at found
    · cases found
    next levels =>
      split at found
      next closed =>
        cases found
        rw [readValue?, skipSpace_append (by simp [closed]), closed]
        rfl
      next opened =>
        obtain ⟨⟨items, after⟩, read, same⟩ := Option.bind_eq_some_iff.mp found
        cases same
        have inhabited := ne_nil_of_readItems? read
        rw [readValue?_bracket (head?_skipSpace_append inhabited opened more),
          skipSpace_append inhabited, reads.items enough read]
        rfl
  next text =>
    rw [List.cons_append]
    split at found
    · cases found
    next levels =>
      split at found
      next closed =>
        cases found
        rw [readValue?, skipSpace_append (by simp [closed]), closed]
        rfl
      next opened =>
        obtain ⟨⟨members, after⟩, read, same⟩ := Option.bind_eq_some_iff.mp found
        cases same
        have inhabited := ne_nil_of_readMembers? read
        rw [readValue?_brace (head?_skipSpace_append inhabited opened more),
          skipSpace_append inhabited, reads.members enough read]
        rfl
  · exact readPlain?_append found left more

theorem ReadsFurther.nextItems (reads : ReadsFurther fuel) {items : List Value}
    (enough : fuel + 1 ≤ steps) (found : readItems? (fuel + 1) levels text = some (items, rest))
    (more : List Char) :
    readItems? steps levels (text ++ more) = some (items, rest ++ more) := by
  obtain ⟨steps, rfl⟩ := Nat.exists_eq_add_of_le' (Nat.le_of_add_left_le enough)
  have enough := Nat.le_of_succ_le_succ enough
  rw [readItems?] at found ⊢
  obtain ⟨⟨item, after⟩, first, found⟩ := Option.bind_eq_some_iff.mp found
  have further (inhabited : skipSpace after ≠ []) :=
    reads.value enough first (fun _ => ne_nil_of_skipSpace inhabited) more
  simp only at found
  split at found
  next between =>
    obtain ⟨⟨later, end_⟩, read, same⟩ := Option.bind_eq_some_iff.mp found
    cases same
    have inhabited : skipSpace after ≠ [] := by simp [between]
    rw [further inhabited, Option.bind_eq_bind, Option.bind_some]
    simp only [skipSpace_append inhabited, between, List.cons_append,
      skipSpace_append (ne_nil_of_readItems? read), reads.items enough read]
    rfl
  next closed =>
    cases found
    have inhabited : skipSpace after ≠ [] := by simp [closed]
    rw [further inhabited, Option.bind_eq_bind, Option.bind_some]
    simp only [skipSpace_append inhabited, closed]
    rfl
  · cases found

theorem ReadsFurther.nextMembers (reads : ReadsFurther fuel) {before members : Members}
    (enough : fuel + 1 ≤ steps)
    (found : readMembers? (fuel + 1) levels before text = some (members, rest))
    (more : List Char) :
    readMembers? steps levels before (text ++ more) = some (members, rest ++ more) := by
  obtain ⟨steps, rfl⟩ := Nat.exists_eq_add_of_le' (Nat.le_of_add_left_le enough)
  have enough := Nat.le_of_succ_le_succ enough
  rw [readMembers?.eq_def] at found
  simp only at found
  split at found
  next text =>
    rw [List.cons_append, readMembers?]
    obtain ⟨⟨key, afterKey⟩, string, found⟩ := Option.bind_eq_some_iff.mp found
    rw [readString?_append string more, Option.bind_eq_bind, Option.bind_some]
    simp only at found
    split at found
    next colon =>
      obtain ⟨⟨value, after⟩, read, found⟩ := Option.bind_eq_some_iff.mp found
      have further (inhabited : skipSpace after ≠ []) :=
        reads.value enough read (fun _ => ne_nil_of_skipSpace inhabited) more
      simp only [skipSpace_append (by simp [colon] : skipSpace afterKey ≠ []), colon,
        List.cons_append, skipSpace_append (ne_nil_of_readValue? read)]
      simp only at found
      split at found
      next between =>
        have inhabited : skipSpace after ≠ [] := by simp [between]
        simp only [further inhabited, Option.bind_eq_bind, Option.bind_some,
          skipSpace_append inhabited, between, List.cons_append,
          skipSpace_append (ne_nil_of_readMembers? found), reads.members enough found]
      next closed =>
        cases found
        have inhabited : skipSpace after ≠ [] := by simp [closed]
        simp only [further inhabited, Option.bind_eq_bind, Option.bind_some,
          skipSpace_append inhabited, closed]
        rfl
      · cases found
    · cases found
  · cases found

theorem readsFurther (fuel : Nat) : ReadsFurther fuel := by
  induction fuel with
  | zero =>
      refine ⟨fun _ found => ?_, fun _ found => ?_, fun _ found => ?_⟩
      · rw [readValue?] at found
        cases found
      · rw [readItems?] at found
        cases found
      · rw [readMembers?] at found
        cases found
  | succ fuel reads => exact ⟨reads.nextValue, reads.nextItems, reads.nextMembers⟩

end Values

section CutOff

variable {fuel levels : Nat} {text more rest : List Char} {number : Number} {value : Value}

/-- What is read as a number begins as a number does. -/
theorem exists_cons_of_readValue?
    (found : readValue? fuel levels text = some (.number number, rest)) :
    ∃ c more, text = c :: more ∧ (c.isDigit = true ∨ c = '-') := by
  cases fuel with
  | zero => cases found
  | succ fuel =>
      rw [readValue?.eq_def] at found
      simp only at found
      split at found
      · obtain ⟨_, -, same⟩ := Option.bind_eq_some_iff.mp found
        cases same
      · split at found
        · cases found
        · split at found
          · cases found
          · obtain ⟨_, -, same⟩ := Option.bind_eq_some_iff.mp found
            cases same
      · split at found
        · cases found
        · split at found
          · cases found
          · obtain ⟨_, -, same⟩ := Option.bind_eq_some_iff.mp found
            cases same
      · rw [readPlain?.eq_def] at found
        split at found
        · cases found
        · cases found
        · cases found
        · obtain ⟨⟨_, after⟩, read, same⟩ := Option.map_eq_some_iff.mp found
          cases same
          exact exists_cons_of_readNumber? read

/-- What is no number does not begin as one. -/
theorem not_isDigit_of_compactChars {c : Char} (noNumber : ∀ number, value ≠ .number number)
    (begins : compactChars value = c :: rest) : ¬(c.isDigit = true ∨ c = '-') := by
  cases value with
  | null =>
      cases begins
      decide
  | bool flag => cases flag <;> cases begins <;> decide
  | number number => exact absurd rfl (noNumber number)
  | string text =>
      cases begins
      decide
  | array items =>
      cases begins
      decide
  | object members =>
      cases begins
      decide

/-- The compact text of a value that is no number cannot be cut off. -/
theorem read?_of_append (data : value.IsData) (shallow : value.depth ≤ nestingLimit)
    (noNumber : ∀ number, value ≠ .number number) (whole : compactChars value = text ++ more)
    (cut : more ≠ []) : read? (String.ofList text) = none := by
  obtain ⟨c, others, begins, starts⟩ := exists_compactChars_cons data.fit
  have numberless := not_isDigit_of_compactChars noNumber begins
  rw [whole] at begins
  have gap : skipSpace text = text := by
    cases text with
    | nil => rfl
    | cons first text =>
        cases begins
        exact skipSpace_of_startsValue starts text
  rw [read?, readWithin?, String.toList_ofList, gap, Option.eq_none_iff_forall_ne_some]
  intro found read
  obtain ⟨⟨inner, after⟩, read, -⟩ := Option.bind_eq_some_iff.mp read
  have left : (∃ number, inner = .number number) → after ≠ [] := by
    rintro ⟨number, rfl⟩
    obtain ⟨first, text, rfl, numeric⟩ := exists_cons_of_readValue? read
    cases begins
    exact absurd numeric numberless
  have enough : 2 * text.length + 2 ≤ 2 * (compactChars value).length + 2 := by
    rw [whole, List.length_append]
    omega
  have further := (readsFurther _).value enough read left more
  rw [← whole, readValue?_compactChars data shallow] at further
  obtain ⟨_, -, same⟩ := Option.map_eq_some_iff.mp further
  exact cut (List.append_eq_nil_iff.mp (Prod.mk.inj same).2.symm).2

end CutOff

end ApiAssembly.Json
