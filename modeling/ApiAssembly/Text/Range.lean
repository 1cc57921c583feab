/-!
# Tables of character ranges

A character class beyond ASCII is a list of ranges of code points.  The main
statement says that a table admits exactly the characters of its ranges.
-/

namespace ApiAssembly.Text

/-- Whether a code point lies in one of the ranges, whose ends are included. -/
def inRanges (ranges : List (Nat × Nat)) (code : Nat) : Bool :=
  ranges.any fun range => range.1 ≤ code && code ≤ range.2

theorem inRanges_iff {ranges : List (Nat × Nat)} {code : Nat} :
    inRanges ranges code = true ↔
      ∃ range ∈ ranges, range.1 ≤ code ∧ code ≤ range.2 := by
  simp [inRanges]

end ApiAssembly.Text
