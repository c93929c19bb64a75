import QueryNotation.Number.Magnitude
import QueryNotation.Number.Shortest

/-!
# Constant values

The constants of a query.  A value has one text, which stands for it in every language; a string
is its own text, without quotes.
-/

namespace QueryNotation

open Number

/-- A typed constant. -/
inductive Value where
  | integer (n : Int64)
  | float (x : Binary64)
  | decimal (d : Decimal)
  | string (s : String)
  | boolean (b : Bool)
  deriving DecidableEq

namespace Value

/-- The name of the value's type in messages. -/
def typeName : Value → String
  | integer _ => "integer"
  | float _ => "float"
  | decimal _ => "decimal"
  | string _ => "string"
  | boolean _ => "boolean"

/-- The text of an integer: its digits, after a minus sign if it is negative. -/
def integerText (n : Int64) : List Char :=
  (if n.toInt < 0 then ['-'] else []) ++ Nat.toDigits 10 n.toInt.natAbs

/-- The text of a truth value. -/
def booleanText (b : Bool) : List Char := if b then "true".toList else "false".toList

/-- The text that stands for the value in a query.  Decimals lose the zeros at their end. -/
def text : Value → List Char
  | integer n => integerText n
  | float x => x.text
  | decimal d => d.normalize.text
  | string s => s.toList
  | boolean b => booleanText b

/-- Equality as the types of the values define it.  Floats compare as numbers, so that
not-a-number differs from itself; decimals compare whatever their places; values of different
types are never equal. -/
def equal : Value → Value → Bool
  | integer m, integer n => m == n
  | float x, float y => x.equal y
  | decimal d, decimal e => d.equal e
  | string s, string t => s == t
  | boolean a, boolean b => a == b
  | _, _ => false

/-- The binary64 number that stands for a numeric value. -/
def toBinary64? : Value → Option Binary64
  | integer n => some (Binary64.ofInt n.toInt)
  | float x => some x
  | decimal d => some d.toBinary64
  | _ => none

example : (integer (-42)).text = "-42".toList := by decide

end Value

end QueryNotation
