/-!
# Character sets given by ranges

A property of characters that a standard lists is kept as a list of inclusive ranges of code
points.  Membership is a search through the list; `inRanges_iff` says what it means.
-/

namespace QueryNotation.Text

/-- Whether the code point lies in one of the inclusive ranges. -/
def inRanges (ranges : List (Nat × Nat)) (point : Nat) : Bool :=
  ranges.any fun range => range.1 ≤ point && point ≤ range.2

theorem inRanges_iff {ranges : List (Nat × Nat)} {point : Nat} :
    inRanges ranges point = true ↔ ∃ range ∈ ranges, range.1 ≤ point ∧ point ≤ range.2 := by
  simp [inRanges]

end QueryNotation.Text
