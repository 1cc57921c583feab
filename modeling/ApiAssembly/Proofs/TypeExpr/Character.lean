import ApiAssembly.TypeExpr.Token

/-!
# Characters that end a token

No blank and no mark of punctuation continues a word or a number, and no character begins
tokens of two kinds.
-/

namespace ApiAssembly.Text

/-- The characters of a table of ranges. -/
def rangeCharacters (ranges : List (Nat × Nat)) : List Char :=
  ranges.flatMap fun (low, high) => (List.range' low (high - low + 1)).map Char.ofNat

theorem mem_rangeCharacters {ranges : List (Nat × Nat)} {c : Char}
    (within : inRanges ranges c.toNat = true) : c ∈ rangeCharacters ranges := by
  obtain ⟨range, member, above, below⟩ := inRanges_iff.mp within
  rw [rangeCharacters, List.mem_flatMap]
  refine ⟨range, member, ?_⟩
  rw [List.mem_map]
  refine ⟨c.toNat, ?_, Char.ofNat_toNat c⟩
  rw [List.mem_range']
  exact ⟨c.toNat - range.1, by omega, by omega⟩

end ApiAssembly.Text

namespace ApiAssembly.TypeExpr

/-- Characters that continue neither a word nor a number. -/
def isDelimiter (c : Char) : Bool :=
  !isWordPart c && c ≠ '.' && c ≠ '-' && c ≠ '+'

/-- Whether a number begins with a character in front of a text. -/
def beginsNumber (c : Char) (rest : List Char) : Bool :=
  c.isDigit || ((c = '-' || c = '+') && rest.head?.any Char.isDigit)

variable {c : Char}

theorem isDelimiter_of_isBlank (blank : Text.isBlank c = true) : isDelimiter c = true := by
  have tabulated : (Text.rangeCharacters Text.blankRanges).all isDelimiter = true := by
    decide +kernel
  exact List.all_eq_true.mp tabulated c (Text.mem_rangeCharacters blank)

theorem isDelimiter_of_punctuation? {token : Token} (mark : punctuation? c = some token) :
    isDelimiter c = true := by
  unfold punctuation? at mark
  split at mark
  all_goals first | decide | cases mark

theorem isWordPart_of_isWordStart (start : isWordStart c = true) : isWordPart c = true := by
  rw [isWordStart, Bool.or_assoc, Bool.or_eq_true] at start
  rw [isWordPart, Text.isAlphanumeric, Bool.or_assoc, Bool.or_eq_true, Bool.or_eq_true]
  rcases start with letter | sign
  · exact Or.inl (Or.inl letter)
  · exact Or.inr sign

theorem isDelimiter_of_isWordPart (part : isWordPart c = true) : isDelimiter c = false := by
  simp [isDelimiter, part]

theorem mem_digits_of_isDigit (digit : c.isDigit = true) :
    c ∈ Text.rangeCharacters [(48, 57)] := by
  apply Text.mem_rangeCharacters
  have bounds := Char.isDigit_iff_toNat.mp digit
  simpa [Text.inRanges] using bounds

theorem isWordPart_of_isDigit (digit : c.isDigit = true) : isWordPart c = true := by
  have tabulated : (Text.rangeCharacters [(48, 57)]).all isWordPart = true := by decide
  exact List.all_eq_true.mp tabulated c (mem_digits_of_isDigit digit)

theorem not_isWordStart_of_isDigit (digit : c.isDigit = true) : isWordStart c = false := by
  have tabulated : (Text.rangeCharacters [(48, 57)]).any isWordStart = false := by decide
  exact Bool.eq_false_iff.mpr
    (List.any_eq_false.mp tabulated c (mem_digits_of_isDigit digit))

end ApiAssembly.TypeExpr
