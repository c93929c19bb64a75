import Mathlib.Algebra.Order.Field.Rat
import QueryNotation.Proofs.QueryAcceptance
import QueryNotation.Proofs.Rereading
import QueryNotation.Proofs.TokenSlices

/-!
# Numerals that are read exactly

A numeral denotes a rational number, and so does the text of a value that
it is read as. The two numbers are the same for every numeral that an
integer or a decimal has room for, whichever type it is read as. What is
printed may be another numeral, and another type may be read from it, but
then it stays as it is.
-/

namespace QueryNotation

open Number

/-! ## The number that a text denotes -/

/-- The number that digits denote, with a point between them or none. -/
def unsignedNumber? (text : List Char) : Option ℚ :=
  let whole := text.takeWhile (·.isDigit)
  match text.dropWhile (·.isDigit) with
  | [] => if whole.isEmpty then none else some (digitsValue whole)
  | c :: fraction =>
    if c = '.' && !whole.isEmpty && !fraction.isEmpty && fraction.all (·.isDigit) then
      some (digitsValue (whole ++ fraction) / (10 ^ fraction.length : Nat))
    else none

/-- The number that a text denotes, if it is a numeral or a minus sign and a
numeral. -/
def number? : List Char → Option ℚ
  | '-' :: text => (unsignedNumber? text).map (-·)
  | text => unsignedNumber? text

/-- Digits, and behind a point more of them. Without those there is no point. -/
structure Numeral where
  whole : List Char
  fraction : List Char
  whole_ne_nil : whole ≠ []
  isDigit_whole : ∀ c ∈ whole, c.isDigit = true
  isDigit_fraction : ∀ c ∈ fraction, c.isDigit = true

namespace Numeral

variable {n : Numeral}

def chars (n : Numeral) : List Char := numeralText n.whole n.fraction

/-- The integer that is left without the point. -/
def digits (n : Numeral) : Nat := digitsValue (n.whole ++ n.fraction)

def places (n : Numeral) : Nat := n.fraction.length

def value (n : Numeral) : ℚ := n.digits / (10 ^ n.places : Nat)

def read (n : Numeral) : Value := .ofNumeral n.whole n.fraction

def ofParts (digits places : Nat) : Numeral where
  whole := wholePart digits places
  fraction := fractionPart digits places
  whole_ne_nil := Nat.toDigits_ne_nil
  isDigit_whole _ := isDigit_of_mem_toDigits
  isDigit_fraction _ := isDigit_of_mem_fractionPart

@[simp] theorem chars_ofParts (digits places : Nat) :
    (ofParts digits places).chars = fixedPoint digits places := numeralText_parts digits places

@[simp] theorem digits_ofParts (digits places : Nat) : (ofParts digits places).digits = digits :=
  digitsValue_parts digits places

@[simp] theorem places_ofParts (digits places : Nat) : (ofParts digits places).places = places :=
  length_fractionPart digits places

@[simp] theorem read_ofParts (digits places : Nat) :
    (ofParts digits places).read = readNumeral digits places := rfl

theorem exists_chars_eq (n : Numeral) : ∃ c text, n.chars = c :: text ∧ c.isDigit = true := by
  obtain ⟨c, whole, hwhole⟩ := List.exists_cons_of_ne_nil n.whole_ne_nil
  refine ⟨c, whole ++ if n.fraction.isEmpty then [] else '.' :: n.fraction, ?_, ?_⟩
  · rw [chars, numeralText, hwhole]
    rfl
  · apply n.isDigit_whole
    rw [hwhole]
    exact List.mem_cons_self

theorem unsignedNumber?_chars (n : Numeral) : unsignedNumber? n.chars = some n.value := by
  have hsplit {rest : List Char} (hrest : ∀ c, rest.head? = some c → c.isDigit = false) :
      (n.whole ++ rest).takeWhile (·.isDigit) = n.whole ∧
        (n.whole ++ rest).dropWhile (·.isDigit) = rest :=
    ⟨takeWhile_append_of_stop n.isDigit_whole hrest, dropWhile_append_of_stop n.isDigit_whole hrest⟩
  unfold unsignedNumber? value digits places chars numeralText
  cases hfraction : n.fraction with
  | nil =>
      have hparts := @hsplit [] nofun
      rw [List.append_nil] at hparts
      simp [hparts, n.whole_ne_nil]
  | cons c fraction =>
      have hall : n.fraction.all (·.isDigit) = true := List.all_eq_true.2 n.isDigit_fraction
      have hparts := @hsplit ('.' :: n.fraction) (by rintro c ⟨⟩; rfl)
      rw [hfraction] at hall hparts
      simp [hparts, n.whole_ne_nil, hall]

@[simp] theorem number?_chars (n : Numeral) : number? n.chars = some n.value := by
  obtain ⟨c, text, hchars, hc⟩ := n.exists_chars_eq
  have hminus : c ≠ '-' := by
    rintro rfl
    cases hc
  rw [← unsignedNumber?_chars, hchars]
  unfold number?
  split
  next heq => exact (hminus (List.cons.inj heq).1).elim
  next => rfl

@[simp] theorem number?_minus (n : Numeral) : number? ('-' :: n.chars) = some (-n.value) := by
  rw [number?, unsignedNumber?_chars, Option.map_some]

/-! ## Reading a numeral behind prefix operators -/

def charsBehind (ops : List UnaryOperator) (n : Numeral) : List Char :=
  ops.flatMap (fun op => (op.symbol .compact).toList) ++ n.chars

def text (n : Numeral) : String := String.ofList n.chars

def textBehind (ops : List UnaryOperator) (n : Numeral) : String :=
  String.ofList (n.charsBehind ops)

theorem textBehind_negative (n : Numeral) : n.textBehind [.negative] = "-" ++ n.text :=
  String.ofList_append

def tokensBehind (ops : List UnaryOperator) (n : Numeral) : List Token :=
  ops.map (fun op => .symbol op.sign) ++ [.literal n.read]

def directiveBehind (ops : List UnaryOperator) (n : Numeral) : Directive :=
  ops.foldr .unary (.constant n.read)

theorem opens_charsBehind (ops : List UnaryOperator) (n : Numeral) : Opens (n.charsBehind ops) := by
  cases ops with
  | nil =>
      obtain ⟨c, text, hchars, hc⟩ := n.exists_chars_eq
      refine ⟨c, text, hchars, ?_⟩
      rintro rfl
      cases hc
  | cons op ops =>
      have hop : Opens (op.symbol .compact).toList := by
        cases op <;> exact ⟨_, _, rfl, by decide⟩
      rw [charsBehind, List.flatMap_cons, List.append_assoc]
      exact hop.append _

theorem spells_charsBehind (ops : List UnaryOperator) (n : Numeral) :
    Spells Delimits (n.charsBehind ops) (n.tokensBehind ops) := by
  induction ops with
  | nil => exact spells_numeral n.whole_ne_nil n.isDigit_whole n.isDigit_fraction
  | cons op ops ih =>
      have hspells := spells_unary op ih (n.opens_charsBehind ops)
      rwa [charsBehind, ← List.append_assoc] at hspells

theorem derives_directiveBehind (ops : List UnaryOperator) (n : Numeral) :
    Derives 0 (n.tokensBehind ops) (n.directiveBehind ops) := by
  induction ops with
  | nil => exact .literal n.read
  | cons op ops ih => exact .unary op.ofToken?_sign ih

theorem cost_directiveBehind (ops : List UnaryOperator) (n : Numeral) :
    (n.directiveBehind ops).cost = ops.length := by
  induction ops with
  | nil => rfl
  | cons op ops ih =>
      change 1 + (n.directiveBehind ops).cost = ops.length + 1
      rw [ih, Nat.add_comm]

theorem head?_tokensBehind (ops : List UnaryOperator) (n : Numeral) (name : String) :
    (n.tokensBehind ops).head? ≠ some (.word name) := by
  cases ops <;> simp [tokensBehind]

theorem hasTokens_textBehind (ops : List UnaryOperator) (n : Numeral) :
    HasTokens (n.textBehind ops) (n.tokensBehind ops) := by
  have hspells := n.spells_charsBehind ops
  rw [← String.toList_ofList (l := n.charsBehind ops)] at hspells
  exact hspells.hasTokens delimits_nil

theorem parse_textBehind (ops : List UnaryOperator) (n : Numeral) (h : ops.length ≤ maxDepth) :
    Directive.parse (n.textBehind ops) = .ok (n.directiveBehind ops) := by
  have hderives : Derives BinaryOperator.loosest (n.tokensBehind ops) (n.directiveBehind ops) :=
    (n.derives_directiveBehind ops).mono (Nat.zero_le _)
  have hread : ReadAs (n.directiveBehind ops) (n.directiveBehind ops) := by
    refine .other ?_
    cases ops <;> exact id
  have hitem := DerivesItem.expression hderives (n.head?_tokensBehind ops _)
    (n.head?_tokensBehind ops _) hread
  rw [cost_directiveBehind] at hitem
  exact (Directive.parse_of_derives (n.hasTokens_textBehind ops) hitem).1 h

/-! ## The value of a numeral -/

def nearest (n : Numeral) : Binary64 := .ofRatio false n.digits (10 ^ n.places)

/-- The values that a numeral may be read as, each with its condition. -/
inductive Converts (n : Numeral) : Value → Prop where
  | integer (hfraction : n.fraction = []) (h : n.digits < 2 ^ 63) :
      Converts n (.integer (Int64.ofNat n.digits))
  | float (htext : n.nearest.text = n.chars) : Converts n (.float n.nearest)
  | decimal (hdigits : (n.digits : Int).natAbs < 2 ^ 96) (hplaces : n.places ≤ 28) :
      Converts n (.decimal ⟨n.digits, n.places, hdigits, hplaces⟩)
  | rounded (h : ¬ (n.places ≤ 28 ∧ n.digits < 2 ^ 96)) : Converts n (.float n.nearest)

theorem converts_read (n : Numeral) : n.Converts n.read := by
  unfold read Value.ofNumeral
  dsimp only
  split
  next h =>
    rw [Bool.and_eq_true, List.isEmpty_iff, decide_eq_true_eq] at h
    exact .integer h.1 h.2
  next =>
    split
    next h =>
      rw [Bool.and_eq_true, beq_iff_eq] at h
      refine .float (h.2.trans ?_)
      rw [chars, numeralText, if_neg (by simpa using h.1)]
    next =>
      by_cases h : (n.digits : Int).natAbs < 2 ^ 96 ∧ n.places ≤ 28
      · have hparts : Decimal.ofParts? (digitsValue (n.whole ++ n.fraction)) n.fraction.length =
            some ⟨n.digits, n.places, h.1, h.2⟩ := dif_pos h
        rw [hparts]
        exact .decimal h.1 h.2
      · have hparts : Decimal.ofParts? (digitsValue (n.whole ++ n.fraction)) n.fraction.length =
            none := dif_neg h
        rw [hparts]
        exact .rounded fun hroom => h ⟨hroom.2, hroom.1⟩

/-- An integer or a decimal has room for the numeral. -/
def HasRoom (n : Numeral) : Prop :=
  (n.fraction = [] ∧ n.digits < 2 ^ 63) ∨ (n.places ≤ 28 ∧ n.digits < 2 ^ 96)

/-- Where an integer has room for a numeral, a decimal has it too. -/
theorem hasRoom_iff : n.HasRoom ↔ n.places ≤ 28 ∧ n.digits < 2 ^ 96 := by
  refine ⟨?_, .inr⟩
  rintro (⟨hfraction, hdigits⟩ | h)
  · rw [places, hfraction]
    exact ⟨Nat.zero_le _, Nat.lt_trans hdigits (by decide)⟩
  · exact h

theorem value_ofParts_trimZeros (n : Numeral) :
    (ofParts (trimZeros n.digits n.places).1 (trimZeros n.digits n.places).2).value = n.value := by
  have hplaces := trimZeros_places_le n.digits n.places
  have hvalue := trimZeros_value n.digits n.places
  generalize trimZeros n.digits n.places = t at hplaces hvalue
  have hten (k : Nat) : ((10 ^ k : Nat) : ℚ) ≠ 0 := by
    exact_mod_cast Nat.ne_of_gt (Nat.pow_pos (by decide))
  rw [value, value, digits_ofParts, places_ofParts, div_eq_div_iff (hten _) (hten _)]
  have hpower : 10 ^ n.places = 10 ^ (n.places - t.2) * 10 ^ t.2 := by
    rw [← Nat.pow_add, Nat.sub_add_cancel hplaces]
  rw [← hvalue, hpower, Nat.cast_mul, Nat.cast_mul, mul_assoc]

/-- What is printed for a numeral that there is room for is a numeral of the
same number, and the value that this is read as is printed alike. -/
theorem exists_printed (h : n.HasRoom) : ∃ m : Numeral,
    n.read.text = m.chars ∧ m.value = n.value ∧ m.read.text = m.chars := by
  have hroom := hasRoom_iff.1 h
  have hconverts := n.converts_read
  generalize hread : n.read = v at hconverts
  cases hconverts with
  | integer hfraction hdigits =>
      have hplaces : n.places = 0 := by
        rw [places, hfraction]
        rfl
      refine ⟨ofParts n.digits 0, ?_, ?_, ?_⟩
      · rw [text_integer hdigits, chars_ofParts, fixedPoint, if_pos rfl]
      · rw [value, value, digits_ofParts, places_ofParts, hplaces]
      · rw [read_ofParts, chars_ofParts]
        exact text_readNumeral (.decimal (.inl rfl) hroom.2 (Nat.zero_le _))
  | float htext =>
      -- The shortest text was met, so the literal itself is printed.
      rw [← hread]
      have hkept : n.read.text = n.chars := hread ▸ htext
      exact ⟨n, hkept, rfl, hkept⟩
  | decimal hdigits hplaces =>
      refine ⟨_, ?_, n.value_ofParts_trimZeros, ?_⟩
      · rw [chars_ofParts, Value.text, text_normalize, if_neg (by simp)]
        rfl
      · rw [read_ofParts, chars_ofParts]
        exact text_readNumeral (.ofDecimal ⟨n.digits, n.places, hdigits, hplaces⟩)
  | rounded hrounded => exact (hrounded hroom).elim

/-- A numeral that there is room for is read as a number of one of the three
types. In either language the value is printed as a numeral of the same
number, and behind a minus sign as one of the opposite number. What is printed
is read as a value with the same text. -/
theorem read_exactly (n : Numeral) (h : n.HasRoom) :
    ∃ v, HasTokens n.text [.literal v] ∧ v.IsNumber ∧
      Directive.parse n.text = .ok (.constant v) ∧
      (∀ language, number? ((Directive.constant v).render language) = some n.value ∧
        ∃ w, Directive.parse ((Directive.constant v).text language) = .ok (.constant w) ∧
          ∀ other, (Directive.constant w).text other = (Directive.constant v).text language) ∧
      ∃ d, Directive.parse ("-" ++ n.text) = .ok d ∧
        ∀ language, number? (d.render language) = some (-n.value) := by
  obtain ⟨m, htext, hvalue, hkept⟩ := exists_printed h
  refine ⟨n.read, n.hasTokens_textBehind [], Value.isNumber_ofNumeral _ _,
    n.parse_textBehind [] (Nat.zero_le _), ?_, n.directiveBehind [.negative], ?_, ?_⟩
  · intro language
    have hrender : (Directive.constant n.read).render language = m.chars := htext
    refine ⟨by rw [hrender, number?_chars, hvalue], m.read, ?_, ?_⟩
    · rw [Directive.text, hrender]
      exact m.parse_textBehind [] (Nat.zero_le _)
    · intro other
      rw [Directive.text, Directive.text, hrender]
      exact congrArg String.ofList hkept
  · rw [← textBehind_negative]
    exact n.parse_textBehind [.negative] (by decide)
  · intro language
    have hrender : (n.directiveBehind [.negative]).render language = '-' :: m.chars := by
      rw [← htext]
      cases language <;> rfl
    rw [hrender, number?_minus, hvalue]

end Numeral

/-- A numeral with a zero at each end. It is read as a decimal, and what is
printed for that is read as a binary64 number. -/
def paddedNumeral : Numeral where
  whole := ['0', '1']
  fraction := ['5', '0']
  whole_ne_nil := by decide
  isDigit_whole := List.all_eq_true.1 (by decide)
  isDigit_fraction := List.all_eq_true.1 (by decide)

theorem paddedNumeral_read : paddedNumeral.HasRoom ∧
    (∃ v, HasTokens paddedNumeral.text [.literal v] ∧ v.IsNumber ∧
      Directive.parse paddedNumeral.text = .ok (.constant v) ∧
      (∀ language, number? ((Directive.constant v).render language) = some paddedNumeral.value ∧
        ∃ w, Directive.parse ((Directive.constant v).text language) = .ok (.constant w) ∧
          ∀ other, (Directive.constant w).text other = (Directive.constant v).text language) ∧
      ∃ d, Directive.parse ("-" ++ paddedNumeral.text) = .ok d ∧
        ∀ language, number? (d.render language) = some (-paddedNumeral.value)) ∧
    paddedNumeral.text = "01.50" ∧ String.ofList paddedNumeral.read.text = "1.5" := by
  have hroom : paddedNumeral.HasRoom := by
    rw [Numeral.hasRoom_iff]
    decide
  exact ⟨hroom, paddedNumeral.read_exactly hroom, by decide, by decide +kernel⟩

end QueryNotation
