import QueryNotation.Number.Binary64
import QueryNotation.Number.Decimal

/-!
# Decimals as binary64 numbers

A decimal with places becomes a binary64 number in steps, each of them rounded: the whole part,
the fraction, their sum, and a last rounding of the sum to the places of the decimal.  The result
can differ from the nearest binary64 number.

The steps work on magnitudes, the numbers without sign, named by their rank.  They stay far below
the largest finite number.
-/

namespace QueryNotation.Number

/-- A binary64 number that is not negative. -/
structure Magnitude where
  rank : Nat
  deriving DecidableEq, Repr

namespace Magnitude

open Binary64

def ofRatio (numerator denominator : Nat) : Magnitude := ⟨nearestRank numerator denominator⟩

def ofNat (n : Nat) : Magnitude := ofRatio n 1

def add (x y : Magnitude) : Magnitude := ofRatio (units x.rank + units y.rank) unitsPerOne

def mul (x y : Magnitude) : Magnitude :=
  ofRatio (units x.rank * units y.rank) (unitsPerOne * unitsPerOne)

def div (x y : Magnitude) : Magnitude := ofRatio (units x.rank) (units y.rank)

/-- The nearest whole number, the larger of two equally near. -/
def round (x : Magnitude) : Magnitude :=
  ofNat ((2 * units x.rank + unitsPerOne) / (2 * unitsPerOne))

/-- Ten to the power `n` by repeated squaring, every product rounded. -/
def tenPower (n : Nat) : Magnitude :=
  let step (s : Magnitude × Magnitude) (bit : Nat) : Magnitude × Magnitude :=
    (if n.testBit bit then s.1.mul s.2 else s.1, s.2.mul s.2)
  ((List.range (n.log2 + 1)).foldl step (ofNat 1, ofNat 10)).1

/-- The magnitude of `mantissa / 10 ^ scale`, in rounded steps. -/
def ofDecimal (mantissa scale : Nat) : Magnitude :=
  let power := 10 ^ scale
  let whole := ofNat (mantissa / power)
  let fraction := (ofNat (mantissa % power)).div (ofNat power)
  if fraction.rank = 0 then whole
  else ((whole.add fraction).mul (tenPower scale)).round.div (tenPower scale)

end Magnitude

/-- The binary64 number that stands for a decimal. -/
def Decimal.toBinary64 (x : Decimal) : Binary64 :=
  Binary64.ofRank (x.mantissa < 0) (Magnitude.ofDecimal x.mantissa.natAbs x.scale).rank

end QueryNotation.Number
