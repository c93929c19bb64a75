import QueryNotation.Number.Power

/-!
# Binary64 numbers

The 64-bit binary floating-point numbers of IEEE 754, in exact integer arithmetic.

The finite numbers that are not negative form one increasing sequence, so each is named by its
`rank` in it.  A number is a multiple of the unit `2 ^ -1074`, and `units` gives the multiple.  Rounding a
ratio finds the two neighbours of the ratio in the sequence and takes the nearer one, the one of
even rank when both are equally near.  Beyond the largest finite number the sequence is continued
as if exponents had no upper end; `ofRank` turns what lies there into an infinity.
-/

namespace QueryNotation.Number

/-- How many finite numbers are not negative; the rank at which infinity begins. -/
abbrev finiteCount : Nat := 2047 * 2 ^ 52

inductive Binary64 where
  | nan
  | infinity (negative : Bool)
  | finite (negative : Bool) (rank : Fin finiteCount)
  deriving DecidableEq, Repr

namespace Binary64

/-! ## Rounding -/

/-- The unit is one over this power of two. -/
@[irreducible] def unitExponent : Nat := 1074

def unitsPerOne : Nat := 2 ^ unitExponent

/-- The number of the given rank, in units. -/
def units (rank : Nat) : Nat :=
  let shift := rank / 2 ^ 52 - 1
  (rank - shift * 2 ^ 52) * 2 ^ shift

/-- The rank of the largest number that is at most `n` units. -/
def floorRank (n : Nat) : Nat :=
  let shift := n.log2 - 52
  shift * 2 ^ 52 + n / 2 ^ shift

/-- Of a rank and the next, the one on the given side of the middle between them; in the middle,
the even one. -/
def sideOf (rank : Nat) : Ordering → Nat
  | .lt => rank
  | .eq => rank + rank % 2
  | .gt => rank + 1

/-- The rank of the number nearest to `numerator / denominator`, the even one of two equally
near. -/
def nearestRank (numerator denominator : Nat) : Nat :=
  let scaled := numerator * unitsPerOne
  let rank := floorRank (scaled / denominator)
  sideOf rank (compare (2 * scaled) ((units rank + units (rank + 1)) * denominator))

/-- The number of the given sign and rank. -/
def ofRank (negative : Bool) (rank : Nat) : Binary64 :=
  if h : rank < finiteCount then finite negative ⟨rank, h⟩ else infinity negative

def ofRatio (negative : Bool) (numerator denominator : Nat) : Binary64 :=
  ofRank negative (nearestRank numerator denominator)

def ofInt (n : Int) : Binary64 := ofRatio (n < 0) n.natAbs 1

def one : Binary64 := ofInt 1

/-! ## Sign and comparison -/

/-- The number with its sign turned. -/
def neg : Binary64 → Binary64
  | nan => nan
  | infinity negative => infinity !negative
  | finite negative rank => finite (!negative) rank

instance : Neg Binary64 := ⟨neg⟩

/-- Equality of numbers: not-a-number equals nothing, and the two zeros are equal. -/
def equal : Binary64 → Binary64 → Bool
  | infinity a, infinity b => a == b
  | finite a r, finite b s => r == s && (a == b || r.val == 0)
  | _, _ => false

def isPositive : Binary64 → Bool
  | nan => false
  | infinity negative => !negative
  | finite negative rank => !negative && rank.val != 0

def isNegative : Binary64 → Bool
  | nan => false
  | infinity negative => negative
  | finite negative rank => negative && rank.val != 0

/-! ## Interchange words -/

/-- The 64-bit interchange word, with one word for all that is not a number. -/
def toWord : Binary64 → UInt64
  | nan => 0x7ff8000000000000
  | infinity negative => word negative finiteCount
  | finite negative rank => word negative rank
where
  word (negative : Bool) (low : Nat) : UInt64 :=
    UInt64.ofNat (if negative then 2 ^ 63 + low else low)

def ofWord (word : UInt64) : Binary64 :=
  let low := word.toNat % 2 ^ 63
  if low ≤ finiteCount then ofRank (2 ^ 63 ≤ word.toNat) low else nan

/-! ## Small facts -/

theorem unitsPerOne_pos : 0 < unitsPerOne := Nat.pow_pos (by decide)

theorem log2_mul_two_pow {m : Nat} (k : Nat) (h : m ≠ 0) : (m * 2 ^ k).log2 = m.log2 + k := by
  induction k with
  | zero => simp
  | succ k ih =>
      have hpow : m * 2 ^ k ≠ 0 := Nat.mul_ne_zero h (Nat.ne_of_gt (Nat.pow_pos (by decide)))
      rw [Nat.pow_succ, ← Nat.mul_assoc, Nat.mul_comm _ 2, Nat.log2_two_mul hpow, ih]
      omega

/-- Rank and units are inverse to each other. -/
theorem floorRank_units (rank : Nat) : floorRank (units rank) = rank := by
  simp only [floorRank, units]
  generalize hk : rank / 2 ^ 52 - 1 = k
  rcases Nat.eq_zero_or_pos k with h0 | hpos
  · subst h0
    have hlt : rank < 2 ^ 53 := by omega
    have hlog : rank.log2 - 52 = 0 := by
      rcases Nat.eq_zero_or_pos rank with hz | hz
      · subst hz
        decide
      · have := (Nat.log2_lt (by omega)).2 hlt
        omega
    simp [hlog]
  · have hm1 : 2 ^ 52 ≤ rank - k * 2 ^ 52 := by omega
    have hm2 : rank - k * 2 ^ 52 < 2 ^ 53 := by omega
    have hm3 : k * 2 ^ 52 + (rank - k * 2 ^ 52) = rank := by omega
    generalize rank - k * 2 ^ 52 = m at hm1 hm2 hm3
    have hm0 : m ≠ 0 := by omega
    have hlog : (m * 2 ^ k).log2 - 52 = k := by
      have h1 := (Nat.log2_lt hm0).2 hm2
      have h2 := (Nat.le_log2 hm0).2 hm1
      rw [log2_mul_two_pow k hm0]
      omega
    rw [hlog, Nat.mul_div_cancel _ (Nat.pow_pos (by decide)), hm3]

theorem units_lt_units_succ (rank : Nat) : units rank < units (rank + 1) := by
  simp only [units]
  generalize hk : rank / 2 ^ 52 - 1 = k
  generalize hj : (rank + 1) / 2 ^ 52 - 1 = j
  have hpow : 0 < 2 ^ k := Nat.pow_pos (by decide)
  rcases Nat.lt_or_ge k j with h | h
  · have hj' : j = k + 1 := by omega
    subst hj'
    have hlt : rank - k * 2 ^ 52 < (rank + 1 - (k + 1) * 2 ^ 52) * 2 := by omega
    rw [Nat.pow_succ 2 k, Nat.mul_comm (2 ^ k), ← Nat.mul_assoc]
    exact Nat.mul_lt_mul_of_pos_right hlt hpow
  · have hj' : j = k := by omega
    subst hj'
    exact Nat.mul_lt_mul_of_pos_right (by omega) hpow

theorem compare_middle_units (rank : Nat) {one : Nat} (hone : 0 < one) :
    compare (2 * (units rank * one)) ((units rank + units (rank + 1)) * one) = .lt := by
  rw [Nat.compare_eq_lt, ← Nat.mul_assoc]
  have := units_lt_units_succ rank
  exact Nat.mul_lt_mul_of_pos_right (by omega) hone

/-- A number is the nearest to itself. -/
theorem nearestRank_units (rank : Nat) : nearestRank (units rank) unitsPerOne = rank := by
  simp only [nearestRank]
  rw [Nat.mul_div_cancel _ unitsPerOne_pos, floorRank_units,
    compare_middle_units rank unitsPerOne_pos, sideOf]

/-- The nearest number depends on the ratio alone. -/
theorem nearestRank_mul_right (numerator denominator : Nat) {k : Nat} (hk : 0 < k) :
    nearestRank (numerator * k) (denominator * k) = nearestRank numerator denominator := by
  have hscaled : numerator * k * unitsPerOne = numerator * unitsPerOne * k :=
    Nat.mul_right_comm _ _ _
  have hcompare (a b : Nat) : compare (a * k) (b * k) = compare a b := by
    simp only [Nat.compare_eq_ite_lt, Nat.mul_lt_mul_right hk]
  simp only [nearestRank, hscaled, Nat.mul_div_mul_right _ _ hk, ← Nat.mul_assoc, hcompare]

example : ofRatio false 1 10 = finite false ⟨0x3fb999999999999a, by decide⟩ := by decide +kernel

end Binary64

end QueryNotation.Number
