import QueryNotation.Number.Binary64
import QueryNotation.Number.Numeral

/-!
# The shortest decimal text of a binary64 number

A number is written with the fewest decimal digits that read back as the same number, and of the
numerals with that many digits by the nearest.  Digits are always positional: there is no
exponent, and no point when the number is whole.

The numerals with a given last place form a grid of decimal points.  Grids are tried from coarse
to fine, on each only the two points around the number count, and the first point that reads back
is taken.  `readsBack_shortestNumeral` says that the numeral reads as the number.
-/

namespace QueryNotation.Number.Binary64

/-- Whether `digits / 10 ^ places` reads as the number of the given rank. -/
def readsBack (rank digits places : Nat) : Bool := nearestRank digits (10 ^ places) == rank

/-- On the grid of the multiples of `10 ^ exponent`, the multiple that stands for the number of the
given rank: of its two neighbours the one that reads back, and if both do the nearer one.  A number
half way between them goes up. -/
def gridPoint? (rank : Nat) (exponent : Int) : Option Nat :=
  let step := 10 ^ exponent.toNat
  let places := (-exponent).toNat
  let numerator := units rank * 10 ^ places
  let denominator := unitsPerOne * step
  let below := numerator / denominator
  let readsBelow := readsBack rank (below * step) places
  let readsAbove := readsBack rank ((below + 1) * step) places
  if readsAbove && (!readsBelow || denominator ≤ 2 * (numerator % denominator)) then some (below + 1)
  else if readsBelow then some below
  else none

/-- The digits and places of `steps` times `10 ^ exponent`, without zeros after the point. -/
def gridNumeral (steps : Nat) (exponent : Int) : Nat × Nat :=
  trimZeros (steps * 10 ^ exponent.toNat) (-exponent).toNat

/-- A power of ten that is no smaller than the leading decimal digit of the number. -/
def coarsestExponent (rank : Nat) : Int :=
  (((units rank).log2 : Int) - 1073) * 30103 / 100000 + 1

/-- The digits and places of the number in full. -/
def exactNumeral (rank : Nat) : Nat × Nat := trimZeros (units rank * 5 ^ unitExponent) unitExponent

/-- The digits and places of the first grid point that reads back as the number of the given rank.
Grids with one to seventeen digits are among those tried. -/
def gridNumeral? (rank : Nat) : Option (Nat × Nat) :=
  let start := coarsestExponent rank
  (List.range 20).findSome? fun (finer : Nat) =>
    (gridPoint? rank (start - finer)).map (gridNumeral · (start - finer))

/-- The digits and places of the shortest numeral that reads back as the number of the given
rank. Seventeen digits always suffice, so that the full numeral is only a safeguard. -/
def shortestNumeral (rank : Nat) : Nat × Nat := (gridNumeral? rank).getD (exactNumeral rank)

/-- The shortest text of a number. -/
def text : Binary64 → List Char
  | nan => ['N', 'a', 'N']
  | infinity negative => sign negative ++ ['i', 'n', 'f']
  | finite negative rank =>
    let numeral := shortestNumeral rank
    sign negative ++ fixedPoint numeral.1 numeral.2
where
  /-- The sign in front of a number. -/
  sign (negative : Bool) : List Char := if negative then ['-'] else []

/-! ## Reading back -/

theorem readsBack_trimZeros (rank digits places : Nat) :
    readsBack rank (trimZeros digits places).1 (trimZeros digits places).2 =
      readsBack rank digits places := by
  have hpos : 0 < 10 ^ (places - (trimZeros digits places).2) := Nat.pow_pos (by decide)
  have hplaces := trimZeros_places_le digits places
  unfold readsBack
  conv => rhs; rw [← trimZeros_value digits places]
  rw [← nearestRank_mul_right _ _ hpos, ← Nat.pow_add]
  congr 3
  omega

theorem readsBack_gridNumeral {rank steps : Nat} {exponent : Int}
    (h : gridPoint? rank exponent = some steps) :
    readsBack rank (gridNumeral steps exponent).1 (gridNumeral steps exponent).2 = true := by
  rw [gridNumeral, readsBack_trimZeros]
  simp only [gridPoint?] at h
  split at h
  next habove =>
    cases h
    exact (Bool.and_eq_true_iff.1 habove).1
  next =>
    split at h
    next hbelow =>
      cases h
      exact hbelow
    next => cases h

theorem readsBack_exactNumeral (rank : Nat) :
    readsBack rank (exactNumeral rank).1 (exactNumeral rank).2 = true := by
  have hten : 10 ^ unitExponent = unitsPerOne * 5 ^ unitExponent := Nat.mul_pow 2 5 _
  rw [exactNumeral, readsBack_trimZeros, readsBack, hten,
    nearestRank_mul_right _ _ (Nat.pow_pos (by decide)), nearestRank_units]
  exact beq_self_eq_true rank

theorem gridNumeral?_eq_some {rank : Nat} {numeral : Nat × Nat}
    (h : gridNumeral? rank = some numeral) :
    ∃ steps exponent, gridPoint? rank exponent = some steps ∧
      numeral = gridNumeral steps exponent := by
  unfold gridNumeral? at h
  obtain ⟨finer, -, hf⟩ := List.exists_of_findSome?_eq_some h
  obtain ⟨steps, hs, rfl⟩ := Option.map_eq_some_iff.1 hf
  exact ⟨steps, _, hs, rfl⟩

/-- The shortest numeral of a number reads as the number. -/
theorem readsBack_shortestNumeral (rank : Nat) :
    readsBack rank (shortestNumeral rank).1 (shortestNumeral rank).2 = true := by
  rw [shortestNumeral]
  cases hfound : gridNumeral? rank with
  | none =>
      rw [Option.getD_none]
      exact readsBack_exactNumeral rank
  | some numeral =>
      obtain ⟨steps, exponent, hs, rfl⟩ := gridNumeral?_eq_some hfound
      rw [Option.getD_some]
      exact readsBack_gridNumeral hs

example : (ofRatio false 3 10).text = "0.3".toList := by decide +kernel

example : (ofRatio false 1 (2 ^ 25)).text = "0.000000029802322387695313".toList := by
  decide +kernel

example : (ofInt (-100)).text = "-100".toList := by decide +kernel

end QueryNotation.Number.Binary64
