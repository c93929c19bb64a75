import QueryNotation.Proofs.ExactNumerals
import QueryNotation.Proofs.Normalization
import QueryNotation.Proofs.Rounding

/-!
# Directions of sort keys

The keyword of a sort key follows the sign of its direction, which is a
binary64 number. A numeral with any number of signs becomes such a number.
The sign is kept, except that a number which is too close to zero for a
decimal and for binary64 becomes zero and loses its keyword.
-/

namespace QueryNotation

open Number

/-! ## Numbers up to half a unit -/

/-- Half of the smallest positive binary64 number. -/
def halfUnit : ℚ := 1 / (2 * Binary64.unitsPerOne : Nat)

theorem doubleUnits_pos : (0 : ℚ) < (2 * Binary64.unitsPerOne : Nat) :=
  Nat.cast_pos.2 (Nat.mul_pos (by decide) Binary64.unitsPerOne_pos)

theorem halfUnit_pos : 0 < halfUnit := one_div_pos.2 doubleUnits_pos

namespace Numeral

theorem halfUnit_lt_value_iff (n : Numeral) :
    halfUnit < n.value ↔ 10 ^ n.places < 2 * (n.digits * Binary64.unitsPerOne) := by
  have hplaces : (0 : ℚ) < (10 ^ n.places : Nat) := Nat.cast_pos.2 (Nat.pow_pos (by decide))
  rw [halfUnit, value, div_lt_div_iff₀ doubleUnits_pos hplaces, one_mul, ← Nat.cast_mul,
    Nat.cast_lt, Nat.mul_left_comm]

theorem value_nonneg (n : Numeral) : 0 ≤ n.value :=
  div_nonneg (Nat.cast_nonneg _) (Nat.cast_nonneg _)

/-- A numeral is read as a number that is not negative, and is zero only up to
half a unit. -/
theorem exists_rank (n : Numeral) : ∃ rank,
    n.read.toBinary64? = some (.ofRank false rank) ∧ (rank ≠ 0 ↔ halfUnit < n.value) := by
  have hpower : 0 < 10 ^ n.places := Nat.pow_pos (by decide)
  have hsign : decide ((n.digits : Int) < 0) = false := decide_eq_false (by omega)
  have hnearest : Binary64.nearestRank n.digits (10 ^ n.places) ≠ 0 ↔ halfUnit < n.value := by
    rw [n.halfUnit_lt_value_iff, Binary64.nearestRank_ne_zero_iff hpower]
  have hconverts := n.converts_read
  generalize n.read = v at hconverts
  cases hconverts with
  | integer hfraction hdigits =>
      have hvalue : (Int64.ofNat n.digits).toInt = n.digits := Int64.toInt_ofNat_of_lt hdigits
      rw [places, hfraction, List.length_nil, Nat.pow_zero] at hnearest
      refine ⟨_, ?_, hnearest⟩
      rw [Value.toBinary64?, hvalue, Binary64.ofInt, hsign, Int.natAbs_natCast, Binary64.ofRatio]
  | float htext => exact ⟨_, rfl, hnearest⟩
  | rounded h => exact ⟨_, rfl, hnearest⟩
  | decimal hdigits hplaces =>
      have hrank := Magnitude.rank_ofDecimal_ne_zero_iff hplaces n.digits
      refine ⟨(Magnitude.ofDecimal n.digits n.places).rank, ?_, ?_⟩
      · rw [Value.toBinary64?, Decimal.toBinary64, hsign, Int.natAbs_natCast]
      · rw [hrank, n.halfUnit_lt_value_iff, ← Nat.pos_iff_ne_zero]
        have hlast : 10 ^ n.places < 2 * Binary64.unitsPerOne :=
          Nat.lt_of_le_of_lt (Nat.pow_le_pow_right (by decide) hplaces) (by decide +kernel)
        constructor
        · intro hpos
          have hmul := Nat.le_mul_of_pos_left Binary64.unitsPerOne hpos
          omega
        · intro hlt
          refine Nat.pos_of_ne_zero ?_
          intro hzero
          rw [hzero] at hlt
          omega

end Numeral

/-! ## Signs -/

variable {signs : List UnaryOperator} {n : Numeral}

/-- The number of a numeral, with its sign turned for every minus. -/
def Numeral.valueBehind (signs : List UnaryOperator) (n : Numeral) : ℚ :=
  signs.foldr (fun op x => if op = .negative then -x else x) n.value

theorem Binary64.neg_ofRank (negative : Bool) (rank : Nat) :
    -Binary64.ofRank negative rank = .ofRank (!negative) rank := by
  unfold Binary64.ofRank
  split <;> rfl

theorem Binary64.sign_ofRank (negative : Bool) (rank : Nat) :
    (Binary64.ofRank negative rank).isPositive = (!negative && rank != 0) ∧
      (Binary64.ofRank negative rank).isNegative = (negative && rank != 0) := by
  unfold Binary64.ofRank
  split
  next => exact ⟨rfl, rfl⟩
  next h =>
    have hrank : (rank != 0) = true := by
      rw [bne_iff_ne]
      rintro rfl
      exact h (by decide)
    rw [hrank, Bool.and_true, Bool.and_true]
    exact ⟨rfl, rfl⟩

/-- The direction has the rank of the numeral, and the sign that is written. -/
theorem Numeral.exists_direction (hsigns : .not ∉ signs) (n : Numeral) : ∃ negative rank,
    SignedNumber (n.directiveBehind signs) (.ofRank negative rank) ∧
      (rank ≠ 0 ↔ halfUnit < n.value) ∧
      n.valueBehind signs = if negative then -n.value else n.value := by
  induction signs with
  | nil =>
      obtain ⟨rank, hread, hrank⟩ := n.exists_rank
      exact ⟨false, rank, .number hread, hrank, rfl⟩
  | cons op signs ih =>
      rw [List.mem_cons, not_or] at hsigns
      obtain ⟨negative, rank, hsigned, hrank, hvalue⟩ := ih hsigns.2
      cases op with
      | positive => exact ⟨negative, rank, .plus hsigned, hrank, hvalue⟩
      | negative =>
          refine ⟨!negative, rank, ?_, hrank, ?_⟩
          · rw [← Binary64.neg_ofRank]
            exact .minus hsigned
          · change -n.valueBehind signs = _
            rw [hvalue]
            cases negative <;> simp
      | not => exact (hsigns.1 rfl).elim

/-! ## Queries -/

def sortedText (signs : List UnaryOperator) (n : Numeral) : String :=
  "t[order(x," ++ n.textBehind signs ++ ")]"

theorem hasTokens_sortedText (signs : List UnaryOperator) (n : Numeral) :
    HasTokens (sortedText signs n) (sortedTokens (n.tokensBehind signs)) := by
  have hkey : Spells Delimits "x".toList [.word "x"] :=
    spells_word (isWord_of_all "x" (by decide))
  have hpieces : ∀ p ∈ [("x".toList, [Token.word "x"]),
      (n.charsBehind signs, n.tokensBehind signs)], Spells Delimits p.1 p.2 := by
    simpa using ⟨hkey, n.spells_charsBehind signs⟩
  have hcall := spells_call (isWord_of_all "order" (by decide)) (spells_comma _)
    delimits_comma hpieces
  rw [Token.ofWord_of_notMem (by decide)] at hcall
  have htable : HasTokens "t" [.word "t"] :=
    hasTokens_word_iff.2 ⟨isWord_of_all "t" (by decide), by decide⟩
  have hquery := spells_query htable hcall
  refine Spells.hasTokens (?_ : Spells (fun _ => True) _ _) trivial
  simpa [sortedText, Numeral.textBehind, sortedTokens, List.intercalate_cons_cons] using hquery

theorem parse_sortedText {x : Binary64} (hdepth : signs.length < maxDepth)
    (hx : SignedNumber (n.directiveBehind signs) x) :
    Query.parse (sortedText signs n) = .ok (sortedQuery x) := by
  have hderives := derivesQuery_sorted (n.derives_directiveBehind signs) hx
  rw [n.cost_directiveBehind] at hderives
  exact (Query.parse_of_derives (hasTokens_sortedText signs n) hderives).1 (by omega)

theorem text_sortedQuery (x : Binary64) : (sortedQuery x).text .relational =
    "SELECT * FROM \"t\" ORDER BY \"x\"" ++
      if x.isPositive then " ASC" else if x.isNegative then " DESC" else "" := by
  have hrender : (sortedQuery x).render .relational = Select.led "SELECT " ['*'] ++
      Select.led " FROM " (Directive.columnText "t" .relational) ++ [] ++ [] ++ [] ++
      Select.led " ORDER BY " (Select.commaJoined [Directive.columnText "x" .relational ++
        if x.isPositive then " ASC".toList else if x.isNegative then " DESC".toList else []]) ++
      [] := rfl
  rw [Query.text, hrender, Select.commaJoined, List.intercalate_singleton]
  split
  · decide +kernel
  · split <;> decide +kernel

/-- The keyword of a sort key whose direction is written as the given number. -/
def sortKeyword (x : ℚ) : String :=
  if halfUnit < x then " ASC" else if x < -halfUnit then " DESC" else ""

theorem Numeral.sortKeyword_value (n : Numeral) :
    sortKeyword n.value = if halfUnit < n.value then " ASC" else "" := by
  have hvalue : ¬ n.value < -halfUnit :=
    not_lt.2 ((neg_neg_of_pos halfUnit_pos).le.trans n.value_nonneg)
  rw [sortKeyword, if_neg hvalue]

theorem Numeral.sortKeyword_neg_value (n : Numeral) :
    sortKeyword (-n.value) = if halfUnit < n.value then " DESC" else "" := by
  have hvalue : ¬ halfUnit < -n.value :=
    not_lt.2 ((neg_nonpos.2 n.value_nonneg).trans halfUnit_pos.le)
  rw [sortKeyword, if_neg hvalue]
  simp only [neg_lt_neg_iff]

/-- A numeral behind signs is accepted as a direction, and its keyword follows
its sign unless the number is at most half a unit away from zero. -/
theorem sorted_by_written_sign (hsigns : .not ∉ signs) (hdepth : signs.length < maxDepth)
    (n : Numeral) : ∃ q, Query.parse (sortedText signs n) = .ok q ∧
      q.text .relational =
        "SELECT * FROM \"t\" ORDER BY \"x\"" ++ sortKeyword (n.valueBehind signs) := by
  obtain ⟨negative, rank, hsigned, hrank, hvalue⟩ := n.exists_direction hsigns
  refine ⟨_, parse_sortedText hdepth hsigned, ?_⟩
  obtain ⟨hpositive, hnegative⟩ := Binary64.sign_ofRank negative rank
  rw [text_sortedQuery, hpositive, hnegative, hvalue]
  cases negative with
  | false => simp [n.sortKeyword_value, hrank]
  | true => simp [n.sortKeyword_neg_value, hrank]

/-- Signs of both kinds. Only the minus turns the direction. -/
theorem paddedNumeral_sorted :
    (UnaryOperator.not ∉ [UnaryOperator.negative, .positive] ∧
      [UnaryOperator.negative, .positive].length < maxDepth) ∧
    (∃ q, Query.parse (sortedText [.negative, .positive] paddedNumeral) = .ok q ∧
      q.text .relational = "SELECT * FROM \"t\" ORDER BY \"x\"" ++
        sortKeyword (paddedNumeral.valueBehind [.negative, .positive])) ∧
    sortedText [.negative, .positive] paddedNumeral = "t[order(x,-+01.50)]" ∧
    sortKeyword (paddedNumeral.valueBehind [.negative, .positive]) = " DESC" := by
  have hvalue : halfUnit < paddedNumeral.value := by
    rw [Numeral.halfUnit_lt_value_iff]
    decide +kernel
  refine ⟨by decide, sorted_by_written_sign (by decide) (by decide) paddedNumeral,
    by decide +kernel, ?_⟩
  exact paddedNumeral.sortKeyword_neg_value.trans (if_pos hvalue)

/-- A numeral that is not zero, and closer to it than half a unit. -/
def tinyNumeral : Numeral where
  whole := ['0']
  fraction := List.replicate 399 '0' ++ ['1']
  whole_ne_nil := by decide
  isDigit_whole := List.all_eq_true.1 (by decide)
  isDigit_fraction := List.all_eq_true.1 (by decide +kernel)

theorem tinyNumeral_unsorted : 0 < tinyNumeral.value ∧
    ∃ q, Query.parse (sortedText [] tinyNumeral) = .ok q ∧
      q.text .relational = "SELECT * FROM \"t\" ORDER BY \"x\"" := by
  have hdigits : 0 < tinyNumeral.digits := by decide +kernel
  have hsmall : ¬ halfUnit < tinyNumeral.value := by
    rw [Numeral.halfUnit_lt_value_iff]
    decide +kernel
  obtain ⟨negative, rank, hsigned, hrank, -⟩ :=
    tinyNumeral.exists_direction (List.not_mem_nil (a := UnaryOperator.not))
  obtain rfl : rank = 0 := not_ne_iff.1 (hrank.not.2 hsmall)
  obtain ⟨hpositive, hnegative⟩ := Binary64.sign_ofRank negative 0
  refine ⟨div_pos (Nat.cast_pos.2 hdigits) (Nat.cast_pos.2 (Nat.pow_pos (by decide))), _,
    parse_sortedText (by decide) hsigned, ?_⟩
  rw [text_sortedQuery, hpositive, hnegative]
  simp

end QueryNotation
