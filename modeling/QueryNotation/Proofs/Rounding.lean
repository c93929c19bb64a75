import Mathlib.Order.Monotone.Basic
import QueryNotation.Number.Magnitude

/-!
# Rounding

A rank lies below the nearest rank of a ratio exactly if the ratio lies above
the middle between it and the next rank, or is the middle and the rank is odd.
So a larger ratio has no smaller nearest rank, and the steps of a conversion
of decimals keep this order. A ratio is rounded to zero up to half a unit.
-/

namespace QueryNotation.Number

namespace Binary64

/-! ## The neighbours of a number of units -/

theorem units_add (k : Nat) {m : Nat} (hlow : k = 0 ∨ 2 ^ 52 ≤ m) (hhigh : m ≤ 2 ^ 53) :
    units (k * 2 ^ 52 + m) = m * 2 ^ k := by
  unfold units
  dsimp only
  rcases Nat.eq_or_lt_of_le hhigh with rfl | hlt
  · have hshift : (k * 2 ^ 52 + 2 ^ 53) / 2 ^ 52 - 1 = k + 1 := by omega
    have hrest : k * 2 ^ 52 + 2 ^ 53 - (k + 1) * 2 ^ 52 = 2 ^ 52 := by omega
    rw [hshift, hrest, Nat.pow_succ 2 k, Nat.mul_comm (2 ^ k), ← Nat.mul_assoc, ← Nat.pow_succ]
  · have hshift : (k * 2 ^ 52 + m) / 2 ^ 52 - 1 = k := by omega
    rw [hshift, Nat.add_sub_cancel_left]

theorem exists_floorRank_eq (n : Nat) : ∃ k, floorRank n = k * 2 ^ 52 + n / 2 ^ k ∧
    (k = 0 ∨ 2 ^ 52 ≤ n / 2 ^ k) ∧ n / 2 ^ k < 2 ^ 53 := by
  refine ⟨n.log2 - 52, rfl, ?_, ?_⟩
  · rcases Nat.lt_or_ge n.log2 53 with hlog | hlog
    · exact .inl (by omega)
    · have hn : n ≠ 0 := by
        rintro rfl
        simp at hlog
      have hpow : 2 ^ (52 + (n.log2 - 52)) ≤ n := (Nat.le_log2 hn).1 (by omega)
      rw [Nat.pow_add] at hpow
      exact .inr ((Nat.le_div_iff_mul_le (Nat.pow_pos (by decide))).2 hpow)
  · rw [Nat.div_lt_iff_lt_mul (Nat.pow_pos (by decide)), ← Nat.pow_add]
    rcases Nat.eq_zero_or_pos n with rfl | hn
    · exact Nat.pow_pos (by decide)
    · exact (Nat.log2_lt (Nat.ne_of_gt hn)).1 (by omega)

/-- A number of units lies between the numbers of its rank and of the next. -/
theorem units_floorRank (n : Nat) : units (floorRank n) ≤ n ∧ n < units (floorRank n + 1) := by
  obtain ⟨k, hrank, hlow, hhigh⟩ := exists_floorRank_eq n
  have hpow : 0 < 2 ^ k := Nat.pow_pos (by decide)
  rw [hrank, Nat.add_assoc, units_add k hlow (Nat.le_of_lt hhigh),
    units_add k (hlow.imp_right Nat.le_succ_of_le) hhigh]
  exact ⟨Nat.div_mul_le_self n _, Nat.lt_mul_of_div_lt (Nat.lt_succ_self _) hpow⟩

theorem units_strictMono : StrictMono units := strictMono_nat_of_lt_succ units_lt_units_succ

/-! ## The nearest rank -/

/-- Twice the middle between a rank and the next, in units. -/
def doubleMiddle (rank : Nat) : Nat := units rank + units (rank + 1)

theorem lt_sideOf_compare (rank a b : Nat) :
    rank < sideOf rank (compare a b) ↔ b < a ∨ a = b ∧ rank % 2 = 1 := by
  rcases Nat.lt_trichotomy a b with h | rfl | h
  · rw [Nat.compare_eq_lt.2 h, sideOf]
    omega
  · rw [Nat.compare_eq_eq.2 rfl, sideOf]
    omega
  · rw [Nat.compare_eq_gt.2 h, sideOf]
    omega

theorem le_sideOf (rank : Nat) (side : Ordering) : rank ≤ sideOf rank side ∧ sideOf rank side ≤ rank + 1 := by
  cases side <;> simp only [sideOf] <;> omega

/-- The ranks below the nearest one. -/
theorem lt_nearestRank_iff {numerator denominator : Nat} (hpos : 0 < denominator) (rank : Nat) :
    rank < nearestRank numerator denominator ↔
      doubleMiddle rank * denominator < 2 * (numerator * unitsPerOne) ∨
        2 * (numerator * unitsPerOne) = doubleMiddle rank * denominator ∧ rank % 2 = 1 := by
  unfold nearestRank
  dsimp only
  generalize numerator * unitsPerOne = scaled
  obtain ⟨hlow, hhigh⟩ := units_floorRank (scaled / denominator)
  generalize floorRank (scaled / denominator) = floor at hlow hhigh
  rw [Nat.le_div_iff_mul_le hpos] at hlow
  rw [Nat.div_lt_iff_lt_mul hpos] at hhigh
  obtain ⟨hfloor, hside⟩ := le_sideOf floor
    (compare (2 * scaled) ((units floor + units (floor + 1)) * denominator))
  rcases Nat.lt_trichotomy rank floor with h | rfl | h
  -- Below the floor every middle is too small, and above it every middle is too large.
  · have hnext : units (rank + 1) ≤ units floor := units_strictMono.monotone h
    have hmiddle : doubleMiddle rank < 2 * units floor := by
      have hrank := units_lt_units_succ rank
      unfold doubleMiddle
      omega
    have hmul := Nat.mul_lt_mul_of_pos_right hmiddle hpos
    rw [Nat.mul_assoc] at hmul
    exact iff_of_true (by omega) (.inl (by omega))
  · exact lt_sideOf_compare _ _ _
  · have hrank : units (floor + 1) ≤ units rank := units_strictMono.monotone h
    have hmiddle : 2 * units (floor + 1) ≤ doubleMiddle rank := by
      have hnext := units_lt_units_succ rank
      unfold doubleMiddle
      omega
    have hmul := Nat.mul_le_mul_right denominator hmiddle
    rw [Nat.mul_assoc] at hmul
    exact iff_of_false (by omega) (by omega)

theorem nearestRank_mono {numerator denominator numerator' denominator' : Nat}
    (hpos : 0 < denominator) (hpos' : 0 < denominator')
    (h : numerator * denominator' ≤ numerator' * denominator) :
    nearestRank numerator denominator ≤ nearestRank numerator' denominator' := by
  have hscaled : 2 * (numerator * unitsPerOne) * denominator' ≤
      2 * (numerator' * unitsPerOne) * denominator := by
    have hmul := Nat.mul_le_mul_right unitsPerOne h
    rw [Nat.mul_right_comm, Nat.mul_right_comm numerator'] at hmul
    rw [Nat.mul_assoc 2, Nat.mul_assoc 2]
    exact Nat.mul_le_mul_left 2 hmul
  -- A ratio above a middle stays above it. One that is a middle stays there or leaves it upwards.
  refine le_of_forall_lt fun rank hrank => ?_
  rw [lt_nearestRank_iff hpos] at hrank
  rw [lt_nearestRank_iff hpos']
  generalize 2 * (numerator * unitsPerOne) = scaled at hscaled hrank
  generalize 2 * (numerator' * unitsPerOne) = scaled' at hscaled ⊢
  rcases hrank with hlt | ⟨rfl, hodd⟩
  · left
    apply Nat.lt_of_mul_lt_mul_right (a := denominator)
    calc doubleMiddle rank * denominator' * denominator
        = doubleMiddle rank * denominator * denominator' := Nat.mul_right_comm _ _ _
      _ < scaled * denominator' := Nat.mul_lt_mul_of_pos_right hlt hpos'
      _ ≤ scaled' * denominator := hscaled
  · rw [Nat.mul_right_comm] at hscaled
    have hle := Nat.le_of_mul_le_mul_right hscaled hpos
    exact (Nat.lt_or_eq_of_le hle).imp id fun heq => ⟨heq.symm, hodd⟩

/-- A ratio is rounded to zero if it is at most half a unit. -/
theorem nearestRank_ne_zero_iff {numerator denominator : Nat} (hpos : 0 < denominator) :
    nearestRank numerator denominator ≠ 0 ↔ denominator < 2 * (numerator * unitsPerOne) := by
  have hmiddle : doubleMiddle 0 = 1 := rfl
  rw [← Nat.pos_iff_ne_zero, lt_nearestRank_iff hpos, hmiddle, Nat.one_mul]
  simp

end Binary64

namespace Magnitude

open Number.Binary64

/-! ## The steps of a conversion -/

variable {x y : Magnitude}

theorem units_mono (h : x.rank ≤ y.rank) : units x.rank ≤ units y.rank :=
  units_strictMono.monotone h

theorem rank_ofNat_mono {m n : Nat} (h : m ≤ n) : (ofNat m).rank ≤ (ofNat n).rank :=
  nearestRank_mono Nat.one_pos Nat.one_pos (by omega)

theorem rank_ofNat_ne_zero_iff (n : Nat) : (ofNat n).rank ≠ 0 ↔ n ≠ 0 := by
  rw [ofNat, ofRatio, nearestRank_ne_zero_iff Nat.one_pos, ← Nat.pos_iff_ne_zero]
  rcases Nat.eq_zero_or_pos n with rfl | hn
  · simp
  · have hscaled : 0 < n * unitsPerOne := Nat.mul_pos hn unitsPerOne_pos
    exact iff_of_true (by omega) hn

theorem rank_le_add (x y : Magnitude) : y.rank ≤ (x.add y).rank := by
  have hmono : nearestRank (units y.rank) unitsPerOne ≤ (x.add y).rank := by
    refine nearestRank_mono unitsPerOne_pos unitsPerOne_pos (Nat.mul_le_mul_right _ ?_)
    exact Nat.le_add_left _ _
  rwa [nearestRank_units] at hmono

theorem rank_mul_mono (h : x.rank ≤ y.rank) (z : Magnitude) :
    (x.mul z).rank ≤ (y.mul z).rank := by
  have hpos : 0 < unitsPerOne * unitsPerOne := Nat.mul_pos unitsPerOne_pos unitsPerOne_pos
  refine nearestRank_mono hpos hpos (Nat.mul_le_mul_right _ ?_)
  exact Nat.mul_le_mul_right _ (units_mono h)

theorem rank_div (x y : Magnitude) :
    (x.div y).rank = nearestRank (units x.rank) (units y.rank) := rfl

theorem units_pos (h : x.rank ≠ 0) : 0 < units x.rank :=
  Nat.lt_of_le_of_lt (Nat.zero_le _) (units_strictMono (Nat.pos_of_ne_zero h))

theorem rank_div_mono (h : x.rank ≤ y.rank) {z : Magnitude} (hz : z.rank ≠ 0) :
    (x.div z).rank ≤ (y.div z).rank := by
  exact nearestRank_mono (units_pos hz) (units_pos hz) (Nat.mul_le_mul_right _ (units_mono h))

theorem rank_round_mono (h : x.rank ≤ y.rank) : x.round.rank ≤ y.round.rank := by
  have hunits := units_mono h
  exact rank_ofNat_mono (Nat.div_le_div_right (by omega))

/-- One in the last place, in the steps of a conversion. -/
def lastPlace (scale : Nat) : Magnitude :=
  (((ofNat 1).div (ofNat (10 ^ scale))).mul (tenPower scale)).round.div (tenPower scale)

theorem lastPlace_ne_zero {scale : Nat} (h : scale ≤ 28) :
    ((ofNat 1).div (ofNat (10 ^ scale))).rank ≠ 0 ∧ (tenPower scale).rank ≠ 0 ∧
      (lastPlace scale).rank ≠ 0 := by
  revert scale
  decide +kernel

theorem rank_power_ne_zero (scale : Nat) : (ofNat (10 ^ scale)).rank ≠ 0 :=
  (rank_ofNat_ne_zero_iff _).2 (Nat.ne_of_gt (Nat.pow_pos (by decide)))

theorem rank_fraction_ne_zero_iff {scale : Nat} (h : scale ≤ 28) (n : Nat) :
    ((ofNat n).div (ofNat (10 ^ scale))).rank ≠ 0 ↔ n ≠ 0 := by
  have hpower := rank_power_ne_zero scale
  constructor
  · rintro hne rfl
    have hzero : (ofNat 0).rank = 0 := not_ne_iff.1 ((rank_ofNat_ne_zero_iff 0).not.2 (by simp))
    have hunits : units 0 = 0 := rfl
    rw [rank_div, nearestRank_ne_zero_iff (units_pos hpower), hzero, hunits, Nat.zero_mul] at hne
    exact Nat.not_lt_zero _ hne
  · intro hn
    have hmono := rank_div_mono (rank_ofNat_mono (Nat.one_le_iff_ne_zero.2 hn)) hpower
    exact Nat.ne_of_gt (Nat.lt_of_lt_of_le (Nat.pos_of_ne_zero (lastPlace_ne_zero h).1) hmono)

/-- Every step leads at least to what one in the last place leads to. -/
theorem rank_lastPlace_le {scale : Nat} (h : scale ≤ 28)
    (hx : ((ofNat 1).div (ofNat (10 ^ scale))).rank ≤ x.rank) :
    (lastPlace scale).rank ≤ ((x.mul (tenPower scale)).round.div (tenPower scale)).rank :=
  rank_div_mono (rank_round_mono (rank_mul_mono hx _)) (lastPlace_ne_zero h).2.1

theorem ofDecimal_eq (mantissa scale : Nat) : ∃ fraction,
    fraction = (ofNat (mantissa % 10 ^ scale)).div (ofNat (10 ^ scale)) ∧
      ofDecimal mantissa scale = if fraction.rank = 0 then ofNat (mantissa / 10 ^ scale)
        else (((ofNat (mantissa / 10 ^ scale)).add fraction).mul (tenPower scale)).round.div
          (tenPower scale) := ⟨_, rfl, rfl⟩

/-- A decimal becomes zero only if it is zero. -/
theorem rank_ofDecimal_ne_zero_iff {scale : Nat} (h : scale ≤ 28) (mantissa : Nat) :
    (ofDecimal mantissa scale).rank ≠ 0 ↔ mantissa ≠ 0 := by
  obtain ⟨fraction, hfraction, hsteps⟩ := ofDecimal_eq mantissa scale
  have hparts := Nat.div_add_mod mantissa (10 ^ scale)
  have hne := rank_fraction_ne_zero_iff h (mantissa % 10 ^ scale)
  rw [← hfraction] at hne
  rw [hsteps]
  split
  next hzero =>
    have hmod : mantissa % 10 ^ scale = 0 := not_ne_iff.1 (hne.not.1 (not_ne_iff.2 hzero))
    rw [hmod, Nat.add_zero] at hparts
    rw [rank_ofNat_ne_zero_iff, not_iff_not]
    refine ⟨fun hdiv => ?_, fun hmantissa => by rw [hmantissa, Nat.zero_div]⟩
    rw [← hparts, hdiv, Nat.mul_zero]
  next hnonzero =>
    have hmod := hne.1 hnonzero
    have hleast : ((ofNat 1).div (ofNat (10 ^ scale))).rank ≤ fraction.rank := by
      rw [hfraction]
      have hone := rank_ofNat_mono (Nat.one_le_iff_ne_zero.2 hmod)
      exact rank_div_mono hone (rank_power_ne_zero scale)
    have hresult := rank_lastPlace_le h (hleast.trans (rank_le_add (ofNat (mantissa / 10 ^ scale)) _))
    have hlast := Nat.pos_of_ne_zero (lastPlace_ne_zero h).2.2
    refine iff_of_true (Nat.ne_of_gt (Nat.lt_of_lt_of_le hlast hresult)) ?_
    rintro rfl
    exact hmod (Nat.zero_mod _)

end Magnitude

end QueryNotation.Number
