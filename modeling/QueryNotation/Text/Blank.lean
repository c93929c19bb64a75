import QueryNotation.Text.Ranges

/-!
# Blank characters

The characters with the property White_Space.  They separate tokens and are trimmed from the
ends of a query.
-/

namespace QueryNotation.Text

/-- The ranges of White_Space. -/
def blankRanges : List (Nat × Nat) :=
  [(0x9, 0xD), (0x20, 0x20), (0x85, 0x85), (0xA0, 0xA0), (0x1680, 0x1680), (0x2000, 0x200A),
   (0x2028, 0x2029), (0x202F, 0x202F), (0x205F, 0x205F), (0x3000, 0x3000)]

/-- Whether the character is white space. -/
def isBlank (c : Char) : Bool := inRanges blankRanges c.toNat

/-- The text without the blank characters at its two ends. -/
def trimBlanks (text : List Char) : List Char :=
  ((text.dropWhile isBlank).reverse.dropWhile isBlank).reverse

example : isBlank ' ' ∧ isBlank '\n' ∧ isBlank '\u2003' ∧ ¬ isBlank '\u200b' := by decide

example : trimBlanks " a b\t".toList = "a b".toList := by decide

end QueryNotation.Text
