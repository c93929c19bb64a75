import QueryNotation.Proofs.CallHistory

/-!
# Texts with the same tokens

Two texts with the same tokens may differ in the blanks between them and
in how tokens are spelled, and so in all their places. The readers do not
tell such texts apart: they give the same, or errors that say the same of
the tokens with the same number. Two runs are in step when they have the
same token ahead and still have to read the texts from the same number on.
-/

namespace QueryNotation

open Text

namespace Lexing

/-! ## Token by token -/

/-- What is ahead are the tokens of `l` from number `i` on. -/
def ReadsFrom (l : Lexing) (i : Nat) (s : Cursor) : Prop :=
  (ofCursor s).failure = none ∧ (ofCursor s).tokens = l.tokens.drop i

/-- The token with the number is the next one, and the end is read again and
again. -/
theorem ReadsFrom.exists_next {l : Lexing} {i : Nat} {s : Cursor} (h : l.ReadsFrom i s) :
    ∃ t stop, Lexer.next s = .ok t stop ∧ l.tokens[i]? = some (t, s.skipBlanks.place) ∧
      l.ReadsFrom (if t = .endOfText then i else i + 1) stop := by
  obtain ⟨hfailure, htokens⟩ := h
  have hget : l.tokens[i]? = (ofCursor s).tokens.head? := by
    rw [htokens, List.head?_drop]
  cases hnext : Lexer.next s with
  | error e stop =>
      rw [ofCursor, atMost, hnext] at hfailure
      cases hfailure
  | ok t stop =>
      refine ⟨t, stop, rfl, ?_⟩
      by_cases ht : t = .endOfText
      · -- The cursor is left at the end, where the end is all that is ahead.
        subst ht
        obtain ⟨hahead, rfl⟩ := Lexer.eq_skipBlanks_of_next hnext
        have hstop : s.skipBlanks.skipBlanks = s.skipBlanks := by
          rw [Cursor.skipBlanks, hahead]
          rfl
        have hagain := Lexer.next_of_ahead_eq_nil (s := s.skipBlanks) (by rw [hstop, hahead])
        rw [ofCursor_of_end hnext] at hget htokens
        refine ⟨hget, ?_⟩
        rw [if_pos rfl, ReadsFrom, ofCursor_of_end hagain, hstop]
        exact ⟨rfl, htokens⟩
      · rw [ofCursor_of_ne hnext ht] at hfailure hget htokens
        refine ⟨hget, ?_⟩
        rw [if_neg ht]
        refine ⟨hfailure, ?_⟩
        have htail := congrArg List.tail htokens
        rwa [List.tail_drop] at htail

/-- Places of tokens with the same number, which are the same token. -/
def SameToken (l₁ l₂ : Lexing) (p₁ p₂ : Position) : Prop :=
  ∃ (i : Nat) (t : Token), l₁.tokens[i]? = some (t, p₁) ∧ l₂.tokens[i]? = some (t, p₂)

variable {l₁ l₂ : Lexing} {i : Nat} {s₁ s₂ : Cursor}

/-- Texts with the same tokens are read token by token together. -/
theorem exists_next_both (htokens : l₁.tokens.map (·.1) = l₂.tokens.map (·.1))
    (h₁ : l₁.ReadsFrom i s₁) (h₂ : l₂.ReadsFrom i s₂) :
    ∃ t stop₁ stop₂ j, Lexer.next s₁ = .ok t stop₁ ∧ Lexer.next s₂ = .ok t stop₂ ∧
      SameToken l₁ l₂ s₁.skipBlanks.place s₂.skipBlanks.place ∧
      l₁.ReadsFrom j stop₁ ∧ l₂.ReadsFrom j stop₂ := by
  obtain ⟨t₁, stop₁, hnext₁, hget₁, hreads₁⟩ := h₁.exists_next
  obtain ⟨t₂, stop₂, hnext₂, hget₂, hreads₂⟩ := h₂.exists_next
  have ht : t₁ = t₂ := by
    have hget := congrArg (fun ts : List Token => ts[i]?) htokens
    simp only [List.getElem?_map, hget₁, hget₂, Option.map_some, Option.some.injEq] at hget
    exact hget
  subst ht
  exact ⟨t₁, stop₁, stop₂, _, hnext₁, hnext₂, ⟨i, t₁, hget₁, hget₂⟩, hreads₁, hreads₂⟩

end Lexing

/-! ## Runs in step -/

/-- The runs have the same token ahead at the same depth, and read on from the
same number. -/
structure ReaderState.InStep (l₁ l₂ : Lexing) (s₁ s₂ : ReaderState) : Prop where
  token : s₁.token = s₂.token
  depth : s₁.depth = s₂.depth
  start : Lexing.SameToken l₁ l₂ s₁.start s₂.start
  ahead : ∃ i, l₁.ReadsFrom i s₁.cursor ∧ l₂.ReadsFrom i s₂.cursor

/-- The comparison of runs over texts that are read without a fault. -/
def tokenwise (l₁ l₂ : Lexing) : Comparison where
  states := ReaderState.InStep l₁ l₂
  places := Lexing.SameToken l₁ l₂
  faults _ _ := False
  beyond _ := False
  excused _ := False

theorem tokenwise_isTotal (l₁ l₂ : Lexing) : (tokenwise l₁ l₂).IsTotal := ⟨fun _ => id, fun _ => id⟩

section

variable {l₁ l₂ : Lexing} (htokens : l₁.tokens.map (·.1) = l₂.tokens.map (·.1))

include htokens

/-- One token more keeps the runs in step. -/
theorem exists_advance_both {s₁ s₂ : ReaderState} (h : s₁.InStep l₁ l₂ s₂) :
    ∃ s₁' s₂', Reader.advance s₁ = .ok () s₁' ∧ Reader.advance s₂ = .ok () s₂' ∧
      s₁'.InStep l₁ l₂ s₂' := by
  obtain ⟨i, h₁, h₂⟩ := h.ahead
  obtain ⟨t, stop₁, stop₂, j, hnext₁, hnext₂, hplace, hreads⟩ :=
    Lexing.exists_next_both htokens h₁ h₂
  refine ⟨_, _, Reader.advance_of_next hnext₁, Reader.advance_of_next hnext₂, ?_⟩
  exact ⟨rfl, h.depth, hplace, j, hreads⟩

theorem tokenwise_isLawful : (tokenwise l₁ l₂).IsLawful where
  token_eq h := h.token
  depth_eq h := h.depth
  start h := h.start
  atDepth h n := ⟨h.token, rfl, h.start, h.ahead⟩
  beyond_atDepth h _ := h
  advance := by
    refine ⟨fun hs => ?_, False.elim⟩
    obtain ⟨s₁', s₂', h₁, h₂, h⟩ := exists_advance_both htokens hs
    rw [h₁, h₂]
    exact .ok () h
  take := by
    refine ⟨fun hs => ?_, False.elim⟩
    obtain ⟨s₁', s₂', h₁, h₂, h⟩ := exists_advance_both htokens hs
    rw [Reader.take_eq_ok_iff.2 h₁, Reader.take_eq_ok_iff.2 h₂]
    exact .ok () h

end

/-! ## Readers of texts with the same tokens -/

theorem HasTokens.lexing {text : String} {ts : List Token} (h : HasTokens text ts) :
    (Lexing.ofText text).failure = none ∧
      (Lexing.ofText text).tokens.map (·.1) = ts ++ [.endOfText] :=
  atMost_of_lexes (hasTokens_iff_lexes.1 h) (Nat.lt_succ_self _)

/-- Readers start in step. -/
theorem exists_start_both {a b : String} {ts : List Token} (ha : HasTokens a ts)
    (hb : HasTokens b ts) : ∃ s₁ s₂, Reader.start a.toList = .ok s₁ ∧
      Reader.start b.toList = .ok s₂ ∧ s₁.InStep (.ofText a) (.ofText b) s₂ := by
  have htokens := ha.lexing.2.trans hb.lexing.2.symm
  have hreads {text : String} (h : HasTokens text ts) :
      (Lexing.ofText text).ReadsFrom 0 (.ofText text.toList) := ⟨h.lexing.1, rfl⟩
  obtain ⟨t, stop₁, stop₂, j, hnext₁, hnext₂, hplace, hahead⟩ :=
    Lexing.exists_next_both htokens (hreads ha) (hreads hb)
  refine ⟨⟨stop₁, t, _, 0⟩, ⟨stop₂, t, _, 0⟩, ?_, ?_, rfl, rfl, hplace, j, hahead⟩
  · simp only [Reader.start, hnext₁]
  · simp only [Reader.start, hnext₂]

/-- Texts with the same tokens are read alike, whatever blanks and spellings
they have: as queries, as directives, and by calls one after the other. -/
theorem outcomes_of_hasTokens {a b : String} {ts : List Token} (ha : HasTokens a ts)
    (hb : HasTokens b ts) :
    (tokenwise (.ofText a) (.ofText b)).Outcomes (Query.parse a) (Query.parse b) ∧
    (tokenwise (.ofText a) (.ofText b)).Outcomes (Directive.parse a) (Directive.parse b) ∧
    ∃ s₁ s₂, Reader.start a.toList = .ok s₁ ∧ Reader.start b.toList = .ok s₂ ∧
      ∀ calls, List.Forall₂ (tokenwise (.ofText a) (.ofText b)).Outcomes
        (Call.runAll calls s₁).1 (Call.runAll calls s₂).1 := by
  have hC := tokenwise_isLawful (ha.lexing.2.trans hb.lexing.2.symm)
  have htotal := tokenwise_isTotal (.ofText a) (.ofText b)
  obtain ⟨s₁, s₂, h₁, h₂, hs⟩ := exists_start_both ha hb
  refine ⟨?_, ?_, s₁, s₂, h₁, h₂, fun calls => ?_⟩
  · rw [Query.parse_of_start h₁, Query.parse_of_start h₂]
    exact ((Comparison.Compares.query hC).outcomes htotal hs).1
  · rw [Directive.parse_of_start h₁, Directive.parse_of_start h₂]
    exact ((Comparison.Compares.directive hC).outcomes htotal hs).1
  · exact (Comparison.outcomes_runAll hC htotal hs calls).1

/-- An item that is not closed, with blanks around its tokens. -/
def spreadText : String := "t [ 'x' , limit(\n 07 ]"

def closeText : String := "t[\"x\",limit(7]"

theorem hasTokens_spreadText_closeText : ∃ ts, HasTokens spreadText ts ∧ HasTokens closeText ts := by
  refine ⟨[.word "t", .symbol .openBracket, .literal (.string "x"), .symbol .comma, .word "limit",
    .symbol .openParen, .literal (.integer 7), .symbol .closeBracket], ?_, ?_⟩
  · exact hasTokens_iff_lexes.2 (lexes_of_atMost (n := 24) (by decide +kernel) (by decide +kernel))
  · exact hasTokens_iff_lexes.2 (lexes_of_atMost (n := 24) (by decide +kernel) (by decide +kernel))

theorem spreadText_fails_like_closeText :
    ∃ e₁ e₂, Query.parse spreadText = .error e₁ ∧ Query.parse closeText = .error e₂ ∧
      (tokenwise (.ofText spreadText) (.ofText closeText)).Errors e₁ e₂ ∧
      e₁.place = ⟨2, 5, 21⟩ ∧ e₂.place = ⟨1, 14, 13⟩ := by
  obtain ⟨ts, hspread, hclose⟩ := hasTokens_spreadText_closeText
  have houtcome := (outcomes_of_hasTokens hspread hclose).1
  have hspreadPlace : ((Query.parse spreadText).mapError (·.place)).map (fun _ => ()) =
      .error ⟨2, 5, 21⟩ := by decide +kernel
  have hclosePlace : ((Query.parse closeText).mapError (·.place)).map (fun _ => ()) =
      .error ⟨1, 14, 13⟩ := by decide +kernel
  generalize Query.parse spreadText = r₁ at houtcome hspreadPlace ⊢
  generalize Query.parse closeText = r₂ at houtcome hclosePlace ⊢
  cases houtcome with
  | ok q => cases hspreadPlace
  | error h =>
      exact ⟨_, _, rfl, rfl, h, Except.error.inj hspreadPlace, Except.error.inj hclosePlace⟩

end QueryNotation
