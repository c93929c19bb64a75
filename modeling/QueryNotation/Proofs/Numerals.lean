import QueryNotation.Proofs.Grammar
import QueryNotation.Proofs.Spelling

/-!
# Numerals that are read back

The text of a number is a sign and a numeral. A numeral is read as an
integer, a decimal or a binary64 number, whichever holds it, and this may
be another type than the one that was written. The text stays the same,
and a finite binary64 number is also kept as a number.
-/

namespace QueryNotation

open Number

/-! ## The parts of a numeral -/

def wholePart (digits places : Nat) : List Char := Nat.toDigits 10 (digits / 10 ^ places)

def fractionPart (digits places : Nat) : List Char :=
  if places = 0 then [] else paddedDigits places (digits % 10 ^ places)

theorem length_paddedDigits {width n : Nat} (hwidth : 0 < width) (h : n < 10 ^ width) :
    (paddedDigits width n).length = width := by
  have hle := (Nat.length_toDigits_le_iff (by decide) hwidth).2 h
  simp only [paddedDigits, List.length_append, List.length_replicate]
  omega

theorem isDigit_of_mem_toDigits {n : Nat} {c : Char} (h : c ∈ Nat.toDigits 10 n) :
    c.isDigit = true :=
  Nat.isDigit_of_mem_toDigits (by decide) (by decide) h

theorem isDigit_of_mem_paddedDigits {width n : Nat} {c : Char} (h : c ∈ paddedDigits width n) :
    c.isDigit = true := by
  rw [paddedDigits, List.mem_append] at h
  rcases h with h | h
  · rw [(List.mem_replicate.1 h).2]
    rfl
  · exact isDigit_of_mem_toDigits h

theorem length_fractionPart (digits places : Nat) :
    (fractionPart digits places).length = places := by
  unfold fractionPart
  split
  next h => exact h.symm
  next h => exact length_paddedDigits (by omega) (Nat.mod_lt _ (Nat.pow_pos (by decide)))

theorem fractionPart_isEmpty (digits places : Nat) :
    (fractionPart digits places).isEmpty = (places == 0) := by
  rw [Bool.eq_iff_iff, List.isEmpty_iff, ← List.length_eq_zero_iff, length_fractionPart, beq_iff_eq]

theorem isDigit_of_mem_fractionPart {digits places : Nat} {c : Char}
    (h : c ∈ fractionPart digits places) : c.isDigit = true := by
  unfold fractionPart at h
  split at h
  next => cases h
  next => exact isDigit_of_mem_paddedDigits h

theorem numeralText_parts (digits places : Nat) :
    numeralText (wholePart digits places) (fractionPart digits places) =
      fixedPoint digits places := by
  by_cases h : places = 0
  · subst h
    simp [numeralText, wholePart, fractionPart, fixedPoint]
  · have hempty : (fractionPart digits places).isEmpty = false := by
      rw [fractionPart_isEmpty]
      simpa using h
    rw [numeralText, hempty, fixedPoint, if_neg h, wholePart, fractionPart, if_neg h]
    rfl

theorem digitsValue_paddedDigits (width n : Nat) : digitsValue (paddedDigits width n) = n := by
  rw [digitsValue, paddedDigits, Nat.ofDigitChars_append, Nat.ofDigitChars_replicate_zero,
    Nat.mul_zero, Nat.ofDigitChars_ten_toDigits]

theorem digitsValue_parts (digits places : Nat) :
    digitsValue (wholePart digits places ++ fractionPart digits places) = digits := by
  have hwhole : digitsValue (wholePart digits places) = digits / 10 ^ places :=
    digitsValue_toDigits _
  have hfraction : digitsValue (fractionPart digits places) = digits % 10 ^ places := by
    unfold fractionPart
    split
    next h =>
      subst h
      rw [Nat.pow_zero, Nat.mod_one]
      rfl
    next => exact digitsValue_paddedDigits _ _
  unfold digitsValue at hwhole hfraction ⊢
  rw [Nat.ofDigitChars_append, Nat.ofDigitChars_eq_ofDigitChars_zero, hwhole, hfraction,
    length_fractionPart]
  exact Nat.div_add_mod _ _

/-! ## What a numeral is read as -/

/-- The value that a numeral is read as. -/
def readNumeral (digits places : Nat) : Value :=
  .ofNumeral (wholePart digits places) (fractionPart digits places)

theorem spells_fixedPoint (digits places : Nat) :
    Spells Delimits (fixedPoint digits places) [.literal (readNumeral digits places)] := by
  rw [← numeralText_parts]
  exact spells_numeral Nat.toDigits_ne_nil (fun c => isDigit_of_mem_toDigits)
    fun c => isDigit_of_mem_fractionPart

theorem readNumeral_integer {digits : Nat} (h : digits < 2 ^ 63) :
    readNumeral digits 0 = .integer (Int64.ofNat digits) := by
  have hcondition : ((fractionPart digits 0).isEmpty && digits < 2 ^ 63) = true := by
    rw [fractionPart_isEmpty, beq_self_eq_true, Bool.true_and, decide_eq_true h]
  unfold readNumeral Value.ofNumeral
  rw [digitsValue_parts, if_pos hcondition]

theorem readNumeral_float {digits places : Nat} (hplaces : places ≠ 0)
    (h : (Binary64.ofRatio false digits (10 ^ places)).text = fixedPoint digits places) :
    readNumeral digits places = .float (Binary64.ofRatio false digits (10 ^ places)) := by
  have hempty : (fractionPart digits places).isEmpty = false := by
    rw [fractionPart_isEmpty]
    simpa using hplaces
  have htext : wholePart digits places ++ '.' :: fractionPart digits places =
      fixedPoint digits places := by
    rw [← numeralText_parts, numeralText, hempty]
    rfl
  unfold readNumeral Value.ofNumeral
  rw [digitsValue_parts, hempty, length_fractionPart, htext]
  dsimp only
  rw [Bool.false_and, if_neg Bool.false_ne_true, h, beq_self_eq_true]
  rfl

/-- What is read when neither an integer nor the text of a binary64 number
is met. -/
theorem readNumeral_of_not {digits places : Nat} (hinteger : ¬ (places = 0 ∧ digits < 2 ^ 63))
    (hfloat : places ≠ 0 →
      (Binary64.ofRatio false digits (10 ^ places)).text ≠ fixedPoint digits places) :
    readNumeral digits places = match Decimal.ofParts? digits places with
      | some d => .decimal d
      | none => .float (Binary64.ofRatio false digits (10 ^ places)) := by
  have hinteger' : ¬ ((fractionPart digits places).isEmpty && digits < 2 ^ 63) = true := by
    simpa [fractionPart_isEmpty] using hinteger
  have hfloat' : ¬ (!(fractionPart digits places).isEmpty &&
      (Binary64.ofRatio false digits (10 ^ places)).text ==
        wholePart digits places ++ '.' :: fractionPart digits places) = true := by
    by_cases hplaces : places = 0
    · simp [fractionPart_isEmpty, hplaces]
    · have hempty : (fractionPart digits places).isEmpty = false := by
        rw [fractionPart_isEmpty]
        simpa using hplaces
      have htext : wholePart digits places ++ '.' :: fractionPart digits places =
          fixedPoint digits places := by
        rw [← numeralText_parts, numeralText, hempty]
        rfl
      rw [hempty, htext]
      simpa using hfloat hplaces
  unfold readNumeral Value.ofNumeral
  rw [digitsValue_parts, if_neg hinteger', length_fractionPart]
  refine (if_neg hfloat').trans ?_
  cases Decimal.ofParts? digits places <;> rfl

/-! ## Numerals that keep their text -/

/-- The numerals of values: those within the bounds of decimals and without
a zero at their end, and the shortest numerals of finite numbers. -/
inductive Readable : Nat → Nat → Prop where
  | decimal {digits places : Nat} (htrimmed : places = 0 ∨ digits % 10 ≠ 0)
      (hdigits : digits < 2 ^ 96) (hplaces : places ≤ 28) : Readable digits places
  | shortest {digits places : Nat} (rank : Fin finiteCount)
      (h : Binary64.shortestNumeral rank = (digits, places)) : Readable digits places

theorem trimZeros_of_trimmed {digits places : Nat} (h : places = 0 ∨ digits % 10 ≠ 0) :
    trimZeros digits places = (digits, places) := by
  cases places with
  | zero => rfl
  | succ places =>
      rw [trimZeros, if_neg]
      simpa using h

theorem trimmed_trimZeros (digits places : Nat) :
    (trimZeros digits places).2 = 0 ∨ (trimZeros digits places).1 % 10 ≠ 0 := by
  induction places generalizing digits with
  | zero => exact .inl rfl
  | succ places ih =>
      unfold trimZeros
      split
      next => exact ih _
      next h => exact .inr h

theorem Binary64.ofRank_of_lt {rank : Nat} (negative : Bool) (h : rank < finiteCount) :
    Binary64.ofRank negative rank = .finite negative ⟨rank, h⟩ := dif_pos h

theorem ofRatio_of_shortest {digits places : Nat} {rank : Fin finiteCount}
    (h : Binary64.shortestNumeral rank = (digits, places)) :
    Binary64.ofRatio false digits (10 ^ places) = .finite false rank := by
  have hreads := Binary64.readsBack_shortestNumeral rank
  rw [h, Binary64.readsBack, beq_iff_eq] at hreads
  rw [Binary64.ofRatio, hreads, Binary64.ofRank_of_lt false rank.isLt]

theorem text_of_shortest (negative : Bool) {digits places : Nat} {rank : Fin finiteCount}
    (h : Binary64.shortestNumeral rank = (digits, places)) :
    (Binary64.finite negative rank).text =
      (if negative then ['-'] else []) ++ fixedPoint digits places := by
  change Binary64.text.sign negative ++ fixedPoint (Binary64.shortestNumeral rank).1
    (Binary64.shortestNumeral rank).2 = _
  rw [h]
  rfl

theorem text_integer {digits : Nat} (h : digits < 2 ^ 63) :
    (Value.integer (Int64.ofNat digits)).text = Nat.toDigits 10 digits := by
  have hvalue : (Int64.ofNat digits).toInt = digits := Int64.toInt_ofNat_of_lt h
  rw [Value.text, Value.integerText, hvalue, if_neg (by omega)]
  rfl

theorem text_decimal {digits places : Nat} (htrimmed : places = 0 ∨ digits % 10 ≠ 0)
    (hdigits : digits < 2 ^ 96) (hplaces : places ≤ 28) :
    ∃ d, Decimal.ofParts? digits places = some d ∧
      (Value.decimal d).text = fixedPoint digits places := by
  refine ⟨⟨digits, places, hdigits, hplaces⟩, dif_pos ⟨hdigits, hplaces⟩, ?_⟩
  have hmantissa : (digits : Int).sign * digits = digits := by
    rcases Nat.eq_zero_or_pos digits with rfl | hpos
    · rfl
    · rw [Int.sign_eq_one_of_pos (by omega), Int.one_mul]
  rw [Value.text, Decimal.text, Decimal.normalize]
  simp only [Int.natAbs_natCast, trimZeros_of_trimmed htrimmed, hmantissa]
  rw [if_neg (by omega)]
  rfl

theorem text_readNumeral {digits places : Nat} (h : Readable digits places) :
    (readNumeral digits places).text = fixedPoint digits places := by
  by_cases hinteger : places = 0 ∧ digits < 2 ^ 63
  · obtain ⟨rfl, hlt⟩ := hinteger
    rw [readNumeral_integer hlt, text_integer hlt]
    rfl
  by_cases hfloat : places ≠ 0 ∧
      (Binary64.ofRatio false digits (10 ^ places)).text = fixedPoint digits places
  · rw [readNumeral_float hfloat.1 hfloat.2]
    exact hfloat.2
  have hnot := readNumeral_of_not hinteger fun hplaces htext => hfloat ⟨hplaces, htext⟩
  by_cases hbounds : digits < 2 ^ 96 ∧ (places = 0 ∨ digits % 10 ≠ 0) ∧ places ≤ 28
  · obtain ⟨d, hd, htext⟩ := text_decimal hbounds.2.1 hbounds.1 hbounds.2.2
    rw [hnot, hd]
    exact htext
  cases h with
  | decimal htrimmed hdigits hplaces => exact (hbounds ⟨hdigits, htrimmed, hplaces⟩).elim
  | shortest rank hshortest =>
      have hratio := ofRatio_of_shortest hshortest
      have htext : (Binary64.finite false rank).text = fixedPoint digits places :=
        text_of_shortest false hshortest
      -- With places the text of the number is met; without, only size is left.
      have hplaces : places = 0 :=
        Decidable.byContradiction fun hne => hfloat ⟨hne, hratio ▸ htext⟩
      have hnone : Decimal.ofParts? digits places = none := by
        refine dif_neg ?_
        rintro ⟨hdigits, -⟩
        exact hbounds ⟨hdigits, .inl hplaces, by omega⟩
      rw [hnot, hnone]
      rw [← htext, ← hratio]
      rfl

/-! ## Numerals that keep their number -/

theorem Binary64.nearestRank_zero (denominator : Nat) : Binary64.nearestRank 0 denominator = 0 := by
  have hfloor : Binary64.floorRank 0 = 0 := rfl
  have hunits : Binary64.units 0 + Binary64.units 1 = 1 := rfl
  unfold Binary64.nearestRank
  dsimp only
  rw [Nat.zero_mul, Nat.zero_div, hfloor, hunits, Nat.one_mul, Nat.mul_zero]
  cases denominator <;> rfl

theorem Magnitude.ofNat_zero : Magnitude.ofNat 0 = ⟨0⟩ := by
  rw [Magnitude.ofNat, Magnitude.ofRatio, Binary64.nearestRank_zero]

theorem Magnitude.zero_div (x : Magnitude) : ((Magnitude.mk 0).div x).rank = 0 := by
  have hunits : Binary64.units 0 = 0 := rfl
  rw [Magnitude.div, hunits, Magnitude.ofRatio, Binary64.nearestRank_zero]

theorem Magnitude.ofDecimal_zero (mantissa : Nat) :
    Magnitude.ofDecimal mantissa 0 = Magnitude.ofNat mantissa := by
  have hfraction : ((Magnitude.ofNat (mantissa % 1)).div (Magnitude.ofNat 1)).rank = 0 := by
    rw [Nat.mod_one, Magnitude.ofNat_zero, Magnitude.zero_div]
  unfold Magnitude.ofDecimal
  dsimp only
  rw [Nat.pow_zero, if_pos hfraction, Nat.div_one]

theorem toBinary64?_readNumeral {digits places : Nat} {rank : Fin finiteCount}
    (h : Binary64.shortestNumeral rank = (digits, places)) :
    (readNumeral digits places).toBinary64? = some (.finite false rank) := by
  have hratio := ofRatio_of_shortest h
  by_cases hplaces : places = 0
  · subst hplaces
    rw [Nat.pow_zero] at hratio
    by_cases hinteger : digits < 2 ^ 63
    · have hvalue : (Int64.ofNat digits).toInt = digits := Int64.toInt_ofNat_of_lt hinteger
      have hsign : decide ((digits : Int) < 0) = false := decide_eq_false (by omega)
      rw [readNumeral_integer hinteger, Value.toBinary64?, hvalue, Binary64.ofInt, hsign,
        Int.natAbs_natCast, hratio]
    · rw [readNumeral_of_not (fun h => hinteger h.2) (fun h => (h rfl).elim)]
      by_cases hdigits : digits < 2 ^ 96
      · have hparts : Decimal.ofParts? digits 0 = some ⟨digits, 0, hdigits, Nat.zero_le _⟩ :=
          dif_pos ⟨hdigits, Nat.zero_le _⟩
        have hsign : decide ((digits : Int) < 0) = false := decide_eq_false (by omega)
        rw [hparts]
        change some (Binary64.ofRank (decide ((digits : Int) < 0))
          (Magnitude.ofDecimal (digits : Int).natAbs 0).rank) = _
        rw [hsign, Int.natAbs_natCast, Magnitude.ofDecimal_zero, ← hratio]
        rfl
      · have hparts : Decimal.ofParts? digits 0 = none := dif_neg fun hbounds => hdigits hbounds.1
        rw [hparts, Nat.pow_zero, ← hratio]
        rfl
  · rw [readNumeral_float hplaces (hratio ▸ text_of_shortest false h), hratio]
    rfl

/-! ## Constants -/

/-- A directive behind a minus sign, if there is one. -/
def Directive.signed (negative : Bool) (d : Directive) : Directive :=
  if negative then .unary .negative d else d

/-- What a numeral behind a sign is read as. -/
def readSigned (negative : Bool) (numeral : Nat × Nat) : Directive :=
  .signed negative (.constant (readNumeral numeral.1 numeral.2))

/-- What the text of a value is read as. Only strings have no such text. -/
def Value.reread : Value → Directive
  | integer n => readSigned (n.toInt < 0) (n.toInt.natAbs, 0)
  | float (.finite negative rank) => readSigned negative (Binary64.shortestNumeral rank)
  | float (.infinity negative) => .signed negative (.column "inf")
  | float .nan => .column "NaN"
  | decimal d => readSigned (d.mantissa < 0) (trimZeros d.mantissa.natAbs d.scale)
  | string s => .constant (string s)
  | boolean b => .constant (boolean b)

def Value.IsFinite : Value → Prop
  | float (.infinity _) | float .nan => False
  | _ => True

theorem render_signed (language : Language) (negative : Bool) (d : Directive) :
    (Directive.signed negative d).render language =
      (if negative then ['-'] else []) ++ d.render language := by
  cases negative with
  | false => rfl
  | true =>
      rw [Directive.signed, if_pos rfl, Directive.render]
      cases language <;> rfl

theorem render_readSigned (language : Language) (negative : Bool) {numeral : Nat × Nat}
    (h : Readable numeral.1 numeral.2) : (readSigned negative numeral).render language =
      (if negative then ['-'] else []) ++ fixedPoint numeral.1 numeral.2 := by
  rw [readSigned, render_signed, Directive.render, text_readNumeral h]

theorem Readable.integer (n : Int64) : Readable n.toInt.natAbs 0 := by
  refine .decimal (.inl rfl) ?_ (Nat.zero_le _)
  have hlt := n.toInt_lt
  have hle := n.le_toInt
  omega

theorem Readable.ofDecimal (d : Decimal) :
    Readable (trimZeros d.mantissa.natAbs d.scale).1 (trimZeros d.mantissa.natAbs d.scale).2 :=
  .decimal (trimmed_trimZeros _ _) (Nat.lt_of_le_of_lt (trimZeros_le _ _) d.mantissa_lt)
    (Nat.le_trans (trimZeros_places_le _ _) d.scale_le)

theorem Readable.ofRank (rank : Fin finiteCount) :
    Readable (Binary64.shortestNumeral rank).1 (Binary64.shortestNumeral rank).2 :=
  .shortest rank (Prod.eta _).symm

theorem text_normalize (d : Decimal) : d.normalize.text = (if d.mantissa < 0 then ['-'] else []) ++
    fixedPoint (trimZeros d.mantissa.natAbs d.scale).1 (trimZeros d.mantissa.natAbs d.scale).2 := by
  have hle := trimZeros_le d.mantissa.natAbs d.scale
  have hvalue := trimZeros_value d.mantissa.natAbs d.scale
  generalize ht : trimZeros d.mantissa.natAbs d.scale = t at hle hvalue
  have hnormalize : d.normalize.mantissa = d.mantissa.sign * t.1 ∧ d.normalize.scale = t.2 := by
    rw [← ht]
    exact ⟨rfl, rfl⟩
  rw [Decimal.text, hnormalize.1, hnormalize.2]
  rcases Int.lt_trichotomy d.mantissa 0 with hneg | hzero | hpos
  · have hdigits : t.1 ≠ 0 := by
      intro hzero
      rw [hzero, Nat.zero_mul] at hvalue
      omega
    rw [Int.sign_eq_neg_one_of_neg hneg, if_pos (by omega), if_pos hneg]
    congr 2
    omega
  · have hdigits : t.1 = 0 := by omega
    rw [hdigits, hzero]
    rfl
  · rw [Int.sign_eq_one_of_pos hpos, if_neg (by omega), if_neg (by omega)]
    congr 2
    omega

theorem render_reread (language : Language) {v : Value} (h : v.IsFinite) :
    v.reread.render language = v.text := by
  cases v with
  | integer n =>
      rw [Value.reread, render_readSigned language _ (.integer n), Value.text, Value.integerText]
      simp [fixedPoint]
  | float x =>
      cases x with
      | finite negative rank =>
          rw [Value.reread, render_readSigned language _ (.ofRank rank)]
          rfl
      | infinity | nan => exact h.elim
  | decimal d =>
      rw [Value.reread, render_readSigned language _ (.ofDecimal d), Value.text, text_normalize]
      simp
  | string | boolean => rfl

theorem render_reread_compact (v : Value) : v.reread.render .compact = v.text := by
  by_cases h : v.IsFinite
  · exact render_reread .compact h
  · cases v with
    | float x =>
        cases x with
        | finite => exact (h trivial).elim
        | infinity negative =>
            rw [Value.reread, render_signed]
            cases negative <;> rfl
        | nan => rfl
    | _ => exact (h trivial).elim

/-- A finite direction is read as the same number. -/
theorem signedNumber_reread (negative : Bool) (rank : Fin finiteCount) :
    SignedNumber (Value.float (.finite negative rank)).reread (.finite negative rank) := by
  have hnumber : SignedNumber (.constant (readNumeral (Binary64.shortestNumeral rank).1
      (Binary64.shortestNumeral rank).2)) (.finite false rank) := .number (toBinary64?_readNumeral (Prod.eta _).symm)
  cases negative with
  | false => exact hnumber
  | true => exact .minus hnumber

end QueryNotation
