import QueryNotation.Proofs.TextTokens

/-!
# Texts that are read as given tokens

Words and numerals go on as far as they can, and some symbols take an
equals sign along, so what is read from a text depends on the text behind
it. A text spells tokens if it is read as them in front of every text of
a given kind.
-/

namespace QueryNotation

open Text

/-- Neither a word nor a numeral goes on into the text. -/
def Delimits (rest : List Char) : Prop :=
  ∀ c, rest.head? = some c → continuesWord c = false ∧ c ≠ '.'

/-- An equals sign would be taken along by the symbol before it. -/
def NoEquals (rest : List Char) : Prop := rest.head? ≠ some '='

theorem Lexes.nil (place : Position) : Lexes ⟨[], place⟩ [] :=
  .done (Lexer.next_of_ahead_eq_nil (by simp))

/-- The text is read as the tokens, if what is behind it is of the kind. -/
def Spells (kind : List Char → Prop) (text : List Char) (ts : List Token) : Prop :=
  ∀ ⦃rest : List Char⦄ ⦃place : Position⦄ ⦃us : List Token⦄, kind rest →
    Lexes ⟨rest, place.after text⟩ us → Lexes ⟨text ++ rest, place⟩ (ts ++ us)

theorem Spells.nil (kind : List Char → Prop) : Spells kind [] [] := fun _ _ _ _ h => h

theorem Spells.append {kind₁ kind₂ : List Char → Prop} {text₁ text₂ : List Char}
    {ts us : List Token} (h₁ : Spells kind₁ text₁ ts) (h₂ : Spells kind₂ text₂ us)
    (h : ∀ rest, kind₂ rest → kind₁ (text₂ ++ rest)) :
    Spells kind₂ (text₁ ++ text₂) (ts ++ us) := by
  intro rest place vs hrest hvs
  rw [Position.after_append] at hvs
  rw [List.append_assoc, List.append_assoc]
  exact h₁ (h rest hrest) (h₂ hrest hvs)

theorem Spells.hasTokens {kind : List Char → Prop} {text : String} {ts : List Token}
    (h : Spells kind text.toList ts) (hkind : kind []) : HasTokens text ts := by
  have hlexes := h hkind (Lexes.nil (Position.start.after text.toList))
  rw [List.append_nil, List.append_nil] at hlexes
  exact hasTokens_iff_lexes.2 hlexes

theorem Spells.mono {kind₁ kind₂ : List Char → Prop} {text : List Char} {ts : List Token}
    (h₁ : Spells kind₁ text ts) (h : ∀ rest, kind₂ rest → kind₁ rest) : Spells kind₂ text ts :=
  fun _ _ _ hrest => h₁ (h _ hrest)

/-! ## Characters -/

theorem inRanges_disjoint {ranges others : List (Nat × Nat)} {point : Nat}
    (hdisjoint : ∀ r ∈ ranges, ∀ o ∈ others, r.2 < o.1 ∨ o.2 < r.1)
    (h : inRanges ranges point = true) : inRanges others point = false := by
  rw [← Bool.not_eq_true]
  intro hother
  obtain ⟨r, hr, hr₁, hr₂⟩ := inRanges_iff.1 h
  obtain ⟨o, ho, ho₁, ho₂⟩ := inRanges_iff.1 hother
  have := hdisjoint r hr o ho
  omega

/-- Below 0x80 a property of characters can be inspected. -/
theorem of_ascii {P : Char → Prop} (h : ∀ n < 0x80, P (Char.ofNat n)) {c : Char}
    (hc : c.toNat < 0x80) : P c :=
  Char.ofNat_toNat c ▸ h c.toNat hc

theorem toNat_lt_of_isDigit {c : Char} (h : c.isDigit = true) : c.toNat < 0x80 :=
  Nat.lt_of_le_of_lt (Char.isDigit_iff_toNat.1 h).2 (by decide)

theorem continuesWord_eq_false_of_isBlank {c : Char} (h : isBlank c = true) :
    continuesWord c = false := by
  by_cases hascii : c.toNat < 0x80
  · exact of_ascii (P := fun c => isBlank c = true → continuesWord c = false)
      (by decide +kernel) hascii h
  · have halphabetic : isAlphabetic c = false := by
      rw [isAlphabetic, if_neg hascii]
      exact inRanges_disjoint (by decide +kernel) h
    have hnumeric : isNumeric c = false := by
      rw [isNumeric, if_neg hascii]
      exact inRanges_disjoint (by decide +kernel) h
    have hunderscore : c ≠ '_' := by
      rintro rfl
      exact hascii (by decide)
    simp [continuesWord, halphabetic, hnumeric, hunderscore]

theorem isBlank_eq_false_of_continuesWord {c : Char} (h : continuesWord c = true) :
    isBlank c = false := by
  rw [← Bool.not_eq_true]
  intro hblank
  rw [continuesWord_eq_false_of_isBlank hblank] at h
  cases h

theorem continuesWord_of_isDigit {c : Char} (h : c.isDigit = true) : continuesWord c = true := by
  rw [continuesWord, isNumeric, if_pos (toNat_lt_of_isDigit h), h, Bool.or_true, Bool.true_or]

theorem startsWord_eq_false_of_isDigit {c : Char} (h : c.isDigit = true) : startsWord c = false :=
  of_ascii (P := fun c => c.isDigit = true → startsWord c = false) (by decide +kernel)
    (toNat_lt_of_isDigit h) h

theorem Scan.symbol?_of_continuesWord {c : Char} {rest : List Char} (h : continuesWord c = true) :
    symbol? c rest = none := by
  have hequals : withEquals? c = none := by
    unfold withEquals?
    split <;> first | rfl | exact absurd h (by decide)
  have halone : alone? c = none := by
    unfold alone?
    split <;> first | rfl | exact absurd h (by decide)
  simp only [symbol?, hequals, halone, Option.map_none]

theorem Scan.ofText_of_continuesWord {c : Char} {rest : List Char} (h : continuesWord c = true) :
    ofText (c :: rest) = if startsWord c then word (c :: rest)
      else if c.isDigit then number (c :: rest) else ⟨.error (.unexpected c), 0⟩ := by
  have hequal : c ≠ '=' := by
    rintro rfl
    exact absurd h (by decide)
  have hquote : ¬ (c = '"' || c = '\x27') = true := by
    intro hquote
    rcases Bool.or_eq_true _ _ ▸ hquote with hc | hc <;>
      exact absurd (of_decide_eq_true hc ▸ h) (by decide)
  simp only [ofText, symbol?_of_continuesWord h, if_neg hequal, if_neg hquote]

theorem Scan.ofText_of_startsWord {c : Char} {rest : List Char} (h : startsWord c = true) :
    ofText (c :: rest) = word (c :: rest) := by
  rw [ofText_of_continuesWord (continuesWord_of_startsWord h), if_pos h]

theorem Scan.ofText_of_isDigit {c : Char} {rest : List Char} (h : c.isDigit = true) :
    ofText (c :: rest) = number (c :: rest) := by
  rw [ofText_of_continuesWord (continuesWord_of_isDigit h),
    if_neg (by simp [startsWord_eq_false_of_isDigit h]), if_pos h]

/-! ## Single tokens -/

section

variable {rest : List Char} {place : Position} {us : List Token}

/-- Nothing but the next token matters for what is read. -/
theorem Lexes.of_next_eq {s s₁ : Cursor} (hnext : Lexer.next s = Lexer.next s₁) (h : Lexes s₁ us) :
    Lexes s us := by
  cases h with
  | done h => exact .done (hnext.trans h)
  | cons h ht hs => exact .cons (hnext.trans h) ht hs

theorem Lexer.next_blank {c : Char} (hc : isBlank c = true) (rest : List Char) (place : Position) :
    next ⟨c :: rest, place⟩ = next ⟨rest, place.next c⟩ := by
  have hskip : Cursor.skipBlanks ⟨c :: rest, place⟩ = Cursor.skipBlanks ⟨rest, place.next c⟩ := by
    simp [Cursor.skipBlanks, hc, Cursor.advance]
  simp only [next, hskip]

theorem Lexes.blank {c : Char} (hc : isBlank c = true) (h : Lexes ⟨rest, place.next c⟩ us) :
    Lexes ⟨c :: rest, place⟩ us :=
  h.of_next_eq (Lexer.next_blank hc rest place)

/-- A token that is scanned off the front of a text. -/
theorem Lexes.scan {c : Char} {text : List Char} {t : Token} (hc : isBlank c = false)
    (hscan : Scan.ofText (c :: text ++ rest) = ⟨.ok t, (c :: text).length⟩)
    (h : Lexes ⟨rest, place.after (c :: text)⟩ us) :
    Lexes ⟨c :: text ++ rest, place⟩ (t :: us) := by
  have hskip : Cursor.skipBlanks ⟨c :: text ++ rest, place⟩ = ⟨c :: text ++ rest, place⟩ := by
    simp [Cursor.skipBlanks, hc, Cursor.advance]
  have hstop : Cursor.advance ⟨c :: text ++ rest, place⟩ (c :: text).length =
      ⟨rest, place.after (c :: text)⟩ := by
    rw [Cursor.advance_eq, List.drop_left, List.take_left]
  refine .cons ?_ ?_ h
  · simp only [Lexer.next, hskip]
    rw [hscan]
    exact congrArg _ hstop
  · rintro rfl
    exact Scan.ofText_ne_endOfText c (text ++ rest) (congrArg Scan.result hscan)

end

/-! ## Words and numerals -/

section

variable {p : Char → Bool} {text rest : List Char}

theorem takeWhile_append_of_stop (htext : ∀ c ∈ text, p c = true)
    (hrest : ∀ c, rest.head? = some c → p c = false) : (text ++ rest).takeWhile p = text := by
  rw [List.takeWhile_append_of_pos htext]
  cases rest with
  | nil => exact List.append_nil text
  | cons c rest => rw [List.takeWhile_cons_of_neg (by simp [hrest c rfl]), List.append_nil]

theorem dropWhile_append_of_stop (htext : ∀ c ∈ text, p c = true)
    (hrest : ∀ c, rest.head? = some c → p c = false) : (text ++ rest).dropWhile p = rest := by
  rw [List.dropWhile_append_of_pos htext]
  cases rest with
  | nil => rfl
  | cons c rest => rw [List.dropWhile_cons_of_neg (by simp [hrest c rfl])]

end

theorem dropWhile_stops {p : Char → Bool} (text : List Char) :
    ∀ c, (text.dropWhile p).head? = some c → p c = false := by
  intro c hc
  have hhead := List.head?_dropWhile_not p text
  rw [hc] at hhead
  simpa using hhead

/-- The names that can be written as one word. -/
def IsWord (name : String) : Prop :=
  (∃ c, name.toList.head? = some c ∧ startsWord c = true) ∧
    ∀ c ∈ name.toList, continuesWord c = true

theorem isWord_takeWhile {c : Char} {rest : List Char} (h : startsWord c = true) :
    IsWord (String.ofList ((c :: rest).takeWhile continuesWord)) := by
  have hhead : (c :: rest).takeWhile continuesWord = c :: rest.takeWhile continuesWord :=
    List.takeWhile_cons_of_pos (continuesWord_of_startsWord h)
  refine ⟨⟨c, ?_, h⟩, ?_⟩
  · rw [String.toList_ofList, hhead, List.head?_cons]
  · intro d hd
    rw [String.toList_ofList] at hd
    exact List.all_eq_true.1 List.all_takeWhile d hd

theorem spells_word {name : String} (h : IsWord name) : Spells Delimits name.toList [.ofWord name] := by
  intro rest place us hrest hus
  obtain ⟨⟨c, hhead, hstart⟩, hall⟩ := h
  obtain ⟨text, hname⟩ : ∃ text, name.toList = c :: text := List.head?_eq_some_iff.1 hhead
  have hcontinues := continuesWord_of_startsWord hstart
  have htake : (c :: text ++ rest).takeWhile continuesWord = c :: text :=
    takeWhile_append_of_stop (hname ▸ hall) fun d hd => (hrest d hd).1
  rw [hname] at hus ⊢
  refine Lexes.scan (isBlank_eq_false_of_continuesWord hcontinues) ?_ hus
  rw [List.cons_append, Scan.ofText_of_startsWord hstart, ← List.cons_append, Scan.word, htake,
    ← hname, String.ofList_toList]

/-- A numeral with the given digits before and after its point. Without
digits after it there is no point. -/
def numeralText (whole fraction : List Char) : List Char :=
  whole ++ if fraction.isEmpty then [] else '.' :: fraction

theorem Scan.fraction_of_delimits {rest : List Char} (h : Delimits rest) : fraction rest = [] := by
  unfold fraction
  split
  next => exact ((h '.' rfl).2 rfl).elim
  next => rfl

theorem Delimits.isDigit_eq_false {rest : List Char} (h : Delimits rest) :
    ∀ c, rest.head? = some c → c.isDigit = false := by
  intro c hc
  rw [← Bool.not_eq_true]
  intro hdigit
  have hword := (h c hc).1
  rw [continuesWord_of_isDigit hdigit] at hword
  cases hword

theorem Scan.number_numeralText {whole fraction rest : List Char}
    (hwhole : ∀ c ∈ whole, c.isDigit = true) (hfraction : ∀ c ∈ fraction, c.isDigit = true)
    (hrest : ∀ c, rest.head? = some c → c.isDigit = false)
    (hpoint : fraction = [] → Scan.fraction rest = []) :
    number (numeralText whole fraction ++ rest) =
      ⟨.ok (.literal (.ofNumeral whole fraction)), (numeralText whole fraction).length⟩ := by
  cases fraction with
  | nil =>
      have htext : numeralText whole [] = whole := List.append_nil whole
      simp only [htext, number, takeWhile_append_of_stop hwhole hrest,
        dropWhile_append_of_stop hwhole hrest, hpoint rfl]
      rfl
  | cons d digits =>
      have htext : numeralText whole (d :: digits) = whole ++ '.' :: d :: digits := rfl
      have hstop : ∀ c, ('.' :: d :: digits ++ rest).head? = some c → c.isDigit = false := by
        intro c hc
        cases hc
        rfl
      have hfound : Scan.fraction ('.' :: d :: digits ++ rest) = d :: digits :=
        takeWhile_append_of_stop hfraction hrest
      rw [htext, List.append_assoc]
      simp only [number, takeWhile_append_of_stop hwhole hstop,
        dropWhile_append_of_stop hwhole hstop, hfound]
      simp

theorem spells_numeral {whole fraction : List Char} (hne : whole ≠ [])
    (hwhole : ∀ c ∈ whole, c.isDigit = true) (hfraction : ∀ c ∈ fraction, c.isDigit = true) :
    Spells Delimits (numeralText whole fraction) [.literal (.ofNumeral whole fraction)] := by
  intro rest place us hrest hus
  obtain ⟨c, digits, rfl⟩ := List.exists_cons_of_ne_nil hne
  have hdigit : c.isDigit = true := hwhole c (by simp)
  refine Lexes.scan (isBlank_eq_false_of_continuesWord (continuesWord_of_isDigit hdigit)) ?_ hus
  exact (Scan.ofText_of_isDigit hdigit).trans (Scan.number_numeralText hwhole hfraction
    hrest.isDigit_eq_false fun _ => Scan.fraction_of_delimits hrest)

/-! ## Symbols -/

def Symbol.IsWordOperator (s : Symbol) : Prop := s = .and ∨ s = .or

def Symbol.TakesEquals (s : Symbol) : Prop := s ∈ [.exclamation, .less, .greater]

theorem Scan.ofText_symbol {s : Symbol} {rest : List Char} (hs : ¬ s.IsWordOperator)
    (hrest : s.TakesEquals → NoEquals rest) :
    ofText (s.text.toList ++ rest) = ⟨.ok (.symbol s), s.text.toList.length⟩ := by
  have halone {c : Char} (hc : alone? c = some s) (hequals : withEquals? c = none ∨ NoEquals rest) :
      ofText (c :: rest) = ⟨.ok (.symbol s), 1⟩ := by
    have hsymbol : symbol? c rest = some (s, 1) := by
      unfold symbol?
      split
      next symbol tail hsome =>
        rcases hequals with hnone | hequals
        · rw [hnone] at hsome
          cases hsome
        · exact (hequals rfl).elim
      next =>
        rw [hc]
        rfl
    simp only [ofText, hsymbol]
  cases s with
  | and | or => exact (hs (by simp [Symbol.IsWordOperator])).elim
  | equal | notEqual | lessEqual | greaterEqual => rfl
  | exclamation | less | greater => exact halone rfl (.inr (hrest (by simp [Symbol.TakesEquals])))
  | _ => exact halone rfl (.inl rfl)

theorem spells_symbol {s : Symbol} (hs : ¬ s.IsWordOperator) :
    Spells (fun rest => s.TakesEquals → NoEquals rest) s.text.toList [.symbol s] := by
  intro rest place us hrest hus
  have hscan := Scan.ofText_symbol hs hrest
  obtain ⟨c, text, htext, hblank⟩ : ∃ c text, s.text.toList = c :: text ∧ isBlank c = false := by
    cases s <;> exact ⟨_, _, rfl, by decide⟩
  rw [htext] at hscan hus ⊢
  exact Lexes.scan hblank hscan hus

theorem spells_blank {kind : List Char → Prop} {text : List Char} {ts : List Token}
    (h : Spells kind text ts) : Spells kind (' ' :: text) ts :=
  fun _ _ _ hrest hus => Lexes.blank rfl (h hrest hus)

end QueryNotation
