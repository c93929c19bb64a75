import QueryNotation.Number.Power

/-!
# Decimal numerals

A numeral is a run of decimal digits with an optional point.  It is handled as two natural
numbers: the integer `digits` left when the point is taken out, and the number `places` of digits
after it, so that the numeral denotes `digits / 10 ^ places`.
-/

namespace QueryNotation.Number

/-- The integer written by a run of decimal digits. -/
def digitsValue (digits : List Char) : Nat := Nat.ofDigitChars 10 digits 0

/-- The decimal digits of `n`, with zeros in front to fill `width`. -/
def paddedDigits (width n : Nat) : List Char :=
  let digits := Nat.toDigits 10 n
  List.replicate (width - digits.length) '0' ++ digits

/-- The numeral for `digits / 10 ^ places` with exactly `places` digits after the point and at
least one before it.  Without places there is no point. -/
def fixedPoint (digits places : Nat) : List Char :=
  if places = 0 then Nat.toDigits 10 digits
  else
    Nat.toDigits 10 (digits / 10 ^ places) ++ '.' :: paddedDigits places (digits % 10 ^ places)

/-- The same number with no zero at the end of its places. -/
def trimZeros (digits : Nat) : Nat → Nat × Nat
  | 0 => (digits, 0)
  | places + 1 =>
    if digits % 10 = 0 then trimZeros (digits / 10) places else (digits, places + 1)

@[simp] theorem digitsValue_toDigits (n : Nat) : digitsValue (Nat.toDigits 10 n) = n :=
  Nat.ofDigitChars_toDigits (by decide) (by decide)

theorem trimZeros_places_le (digits places : Nat) : (trimZeros digits places).2 ≤ places := by
  induction places generalizing digits with
  | zero => simp [trimZeros]
  | succ places ih =>
      unfold trimZeros
      split
      · exact Nat.le_succ_of_le (ih _)
      · exact Nat.le_refl _

/-- Taking zeros off the end does not change the number. -/
theorem trimZeros_value (digits places : Nat) :
    (trimZeros digits places).1 * 10 ^ (places - (trimZeros digits places).2) = digits := by
  induction places generalizing digits with
  | zero => simp [trimZeros]
  | succ places ih =>
      unfold trimZeros
      split
      next h =>
        have hle := trimZeros_places_le (digits / 10) places
        rw [Nat.succ_sub hle, Nat.pow_succ, ← Nat.mul_assoc, ih, Nat.div_mul_cancel]
        exact Nat.dvd_of_mod_eq_zero h
      next => simp

theorem trimZeros_le (digits places : Nat) : (trimZeros digits places).1 ≤ digits := by
  have h := trimZeros_value digits places
  have hpos : 0 < 10 ^ (places - (trimZeros digits places).2) := Nat.pow_pos (by decide)
  exact Nat.le_trans (Nat.le_mul_of_pos_right _ hpos) (Nat.le_of_eq h)

example : fixedPoint 1250 2 = "12.50".toList ∧ fixedPoint 7 3 = "0.007".toList := by decide

example : trimZeros 12500 3 = (125, 1) ∧ trimZeros 0 4 = (0, 0) := by decide

end QueryNotation.Number
