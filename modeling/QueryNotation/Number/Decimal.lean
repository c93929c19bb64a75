import QueryNotation.Number.Numeral

/-!
# Exact decimal numbers

A decimal keeps its digits and its number of places apart: `1.50` and `1.5` are equal decimals
with different texts.  Both parts are bounded, the digits by 96 bits and the places by 28.
-/

namespace QueryNotation.Number

/-- The number `mantissa / 10 ^ scale`. -/
structure Decimal where
  mantissa : Int
  scale : Nat
  mantissa_lt : mantissa.natAbs < 2 ^ 96
  scale_le : scale ≤ 28
  deriving DecidableEq, Repr

namespace Decimal

/-- The decimal with the given digits and places, when both are within bounds. -/
def ofParts? (mantissa : Int) (scale : Nat) : Option Decimal :=
  if h : mantissa.natAbs < 2 ^ 96 ∧ scale ≤ 28 then some ⟨mantissa, scale, h.1, h.2⟩ else none

/-- Equality of the numbers, whatever their places. -/
def equal (x y : Decimal) : Bool := x.mantissa * 10 ^ y.scale == y.mantissa * 10 ^ x.scale

/-- The text with all the places of the decimal. -/
def text (x : Decimal) : List Char :=
  (if x.mantissa < 0 then ['-'] else []) ++ fixedPoint x.mantissa.natAbs x.scale

/-- The equal decimal with no zero at the end of its places. -/
def normalize (x : Decimal) : Decimal :=
  let trimmed := trimZeros x.mantissa.natAbs x.scale
  { mantissa := x.mantissa.sign * trimmed.1
    scale := trimmed.2
    mantissa_lt := by
      have h := Nat.lt_of_le_of_lt (trimZeros_le x.mantissa.natAbs x.scale) x.mantissa_lt
      rcases Int.lt_trichotomy x.mantissa 0 with hs | hs | hs
      · simpa [Int.natAbs_mul, Int.sign_eq_neg_one_of_neg hs] using h
      · simp [hs]
      · simpa [Int.natAbs_mul, Int.sign_eq_one_of_pos hs] using h
    scale_le := Nat.le_trans (trimZeros_places_le _ _) x.scale_le }

theorem equal_iff {x y : Decimal} :
    x.equal y = true ↔ x.mantissa * 10 ^ y.scale = y.mantissa * 10 ^ x.scale := by
  simp [equal]

end Decimal

end QueryNotation.Number
