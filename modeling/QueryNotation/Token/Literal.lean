import QueryNotation.Value

/-!
# Literals

The values that literals of the notation stand for.

A number is read as the first of these that loses nothing: a 64-bit integer, when there is no
point; a binary64 number, when its shortest text is the literal itself; a decimal.  Only what
none of them can hold becomes the nearest binary64 number.

Inside quotes a backslash introduces an escape.
-/

namespace QueryNotation

open Number

/-- The value of a number written with the digits `whole` and, after a point, the digits
`fraction`.  Without a point there is no fraction. -/
def Value.ofNumeral (whole fraction : List Char) : Value :=
  let digits := digitsValue (whole ++ fraction)
  if fraction.isEmpty && digits < 2 ^ 63 then .integer (Int64.ofNat digits)
  else
    let float := Binary64.ofRatio false digits (10 ^ fraction.length)
    if !fraction.isEmpty && float.text == whole ++ '.' :: fraction then .float float
    else
      match Decimal.ofParts? digits fraction.length with
      | some d => .decimal d
      | none => .float float

/-- The character that a backslash and the given character stand for. -/
def unescape? : Char → Option Char
  | 'n' => some '\n'
  | 't' => some '\t'
  | 'r' => some '\r'
  | '"' => some '"'
  | '\x27' => some '\x27'
  | '\\' => some '\\'
  | _ => none

example : Value.ofNumeral "007".toList [] = .integer 7 := by decide +kernel

example : Value.ofNumeral "2".toList "5".toList = .float (.ofRatio false 5 2) := by
  decide +kernel

example : (Value.ofNumeral "1".toList "50".toList).typeName = "decimal" := by decide +kernel

end QueryNotation
