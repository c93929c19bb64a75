import QueryNotation.Proofs.TokenPassing

/-!
# The tokens of a text

A text has tokens when it can be read to its end. A reader that starts at
the front of such a text passes over its tokens and stands at the end.
-/

namespace QueryNotation

open Text

/-- The tokens of a text, without the end. -/
def HasTokens (text : String) (ts : List Token) : Prop :=
  ∃ stop, Lexer.all (.ofText text.toList) = .ok (ts ++ [.endOfText]) stop

/-- The text ahead is read to its end as the tokens. -/
inductive Lexes : Cursor → List Token → Prop where
  | done {s stop : Cursor} (h : Lexer.next s = .ok .endOfText stop) : Lexes s []
  | cons {s s₁ : Cursor} {t : Token} {ts : List Token} (h : Lexer.next s = .ok t s₁)
      (ht : t ≠ .endOfText) (hs : Lexes s₁ ts) : Lexes s (t :: ts)

/-! ## The end of a text -/

theorem Token.ofWord_ne_endOfText (name : String) : ofWord name ≠ endOfText := by
  unfold ofWord
  split <;> simp

theorem Scan.ofText_ne_endOfText (c : Char) (rest : List Char) :
    (ofText (c :: rest)).result ≠ .ok .endOfText := by
  simp only [ofText]
  split
  next => simp
  next =>
    split
    next => simp
    next =>
      split
      next =>
        rcases hq : quoted c rest with ⟨_ | _, n⟩ <;> simp [string, hq, Except.map]
      next =>
        split
        next => simpa [word] using Token.ofWord_ne_endOfText _
        next =>
          split
          next => simp [number]
          next => simp

theorem Lexer.next_of_ahead_eq_nil {s : Cursor} (h : s.skipBlanks.ahead = []) :
    next s = .ok .endOfText s.skipBlanks := by
  simp only [next, h]
  rfl

/-- Only at its end is the end of a text read. -/
theorem Lexer.eq_skipBlanks_of_next {s stop : Cursor} (h : next s = .ok .endOfText stop) :
    s.skipBlanks.ahead = [] ∧ stop = s.skipBlanks := by
  cases hahead : s.skipBlanks.ahead with
  | nil =>
      rw [next_of_ahead_eq_nil hahead] at h
      cases h
      exact ⟨rfl, rfl⟩
  | cons c rest =>
      simp only [next, hahead] at h
      split at h
      next t ht =>
        cases h
        exact (Scan.ofText_ne_endOfText c rest ht).elim
      next => cases h
      next => cases h

theorem Lexer.ahead_eq_nil_of_next {s stop : Cursor} (h : next s = .ok .endOfText stop) :
    stop.ahead = [] := by
  obtain ⟨hahead, rfl⟩ := eq_skipBlanks_of_next h
  exact hahead

/-! ## Reading a text to its end -/

theorem Lexing.atMost_of_end {s stop : Cursor} {n : Nat} (h : Lexer.next s = .ok .endOfText stop) :
    atMost (n + 1) s = ⟨[(.endOfText, s.skipBlanks.place)], none, stop⟩ := by
  rw [atMost, h]

theorem Lexing.atMost_of_ne {s s₁ : Cursor} {t : Token} {n : Nat} (h : Lexer.next s = .ok t s₁)
    (ht : t ≠ .endOfText) :
    atMost (n + 1) s = (atMost n s₁).cons (t, s.skipBlanks.place) := by
  rw [atMost, h]
  cases t <;> first | rfl | exact (ht rfl).elim

theorem Lexing.atMost_eq_atMost {m n : Nat} {s : Cursor} (hm : s.ahead.length < m)
    (hn : s.ahead.length < n) : atMost m s = atMost n s := by
  induction m generalizing n s with
  | zero => exact (Nat.not_lt_zero _ hm).elim
  | succ m ih =>
      obtain ⟨n, rfl⟩ := Nat.exists_eq_succ_of_ne_zero (Nat.ne_zero_of_lt hn)
      cases hnext : Lexer.next s with
      | error e stop => rw [atMost, atMost, hnext]
      | ok t stop =>
          by_cases ht : t = .endOfText
          · subst ht
            rw [atMost_of_end hnext, atMost_of_end hnext]
          · have hlt := length_ahead_lt_of_next hnext ht
            rw [atMost_of_ne hnext ht, atMost_of_ne hnext ht,
              ih (Nat.lt_of_lt_of_le hlt (Nat.le_of_lt_succ hm))
                (Nat.lt_of_lt_of_le hlt (Nat.le_of_lt_succ hn))]

theorem Lexing.ofCursor_of_end {s stop : Cursor} (h : Lexer.next s = .ok .endOfText stop) :
    ofCursor s = ⟨[(.endOfText, s.skipBlanks.place)], none, stop⟩ := atMost_of_end h

theorem Lexing.ofCursor_of_ne {s stop : Cursor} {t : Token} (h : Lexer.next s = .ok t stop)
    (ht : t ≠ .endOfText) : ofCursor s = (ofCursor stop).cons (t, s.skipBlanks.place) := by
  have hlt := length_ahead_lt_of_next h ht
  rw [ofCursor, atMost_of_ne h ht, ofCursor, atMost_eq_atMost hlt (Nat.lt_succ_self _)]

theorem lexes_of_atMost {n : Nat} {s : Cursor} {ts : List Token}
    (hfailure : (Lexing.atMost n s).failure = none)
    (htokens : (Lexing.atMost n s).tokens.map (·.1) = ts ++ [.endOfText]) : Lexes s ts := by
  induction n generalizing s ts with
  | zero => simp [Lexing.atMost] at htokens
  | succ n ih =>
      cases hnext : Lexer.next s with
      | error e stop =>
          rw [Lexing.atMost, hnext] at hfailure
          cases hfailure
      | ok t s₁ =>
          by_cases ht : t = .endOfText
          · subst ht
            rw [Lexing.atMost_of_end hnext] at htokens
            have hnil : ts = [] := by simpa using htokens.symm
            subst hnil
            exact .done hnext
          · rw [Lexing.atMost_of_ne hnext ht] at hfailure htokens
            cases ts with
            | nil =>
                simp only [Lexing.cons, List.map_cons, List.nil_append, List.cons.injEq] at htokens
                exact (ht htokens.1).elim
            | cons u us =>
                simp only [Lexing.cons, List.map_cons, List.cons_append, List.cons.injEq] at htokens
                exact htokens.1 ▸ .cons hnext ht (ih hfailure htokens.2)

theorem atMost_of_lexes {s : Cursor} {ts : List Token} (h : Lexes s ts) {n : Nat}
    (hn : s.ahead.length < n) : (Lexing.atMost n s).failure = none ∧
      (Lexing.atMost n s).tokens.map (·.1) = ts ++ [.endOfText] := by
  induction h generalizing n with
  | done h =>
      obtain ⟨n, rfl⟩ := Nat.exists_eq_succ_of_ne_zero (Nat.ne_of_gt (Nat.zero_lt_of_lt hn))
      rw [Lexing.atMost_of_end h]
      exact ⟨rfl, rfl⟩
  | cons h ht hs ih =>
      obtain ⟨n, rfl⟩ := Nat.exists_eq_succ_of_ne_zero (Nat.ne_of_gt (Nat.zero_lt_of_lt hn))
      have hlt := Lexing.length_ahead_lt_of_next h ht
      obtain ⟨hfailure, htokens⟩ := ih (n := n) (by omega)
      rw [Lexing.atMost_of_ne h ht]
      exact ⟨hfailure, by simp [Lexing.cons, htokens]⟩

theorem hasTokens_iff_lexes {text : String} {ts : List Token} :
    HasTokens text ts ↔ Lexes (.ofText text.toList) ts := by
  unfold HasTokens Lexer.all Lexing.ofCursor
  constructor
  · rintro ⟨stop, h⟩
    dsimp only at h
    split at h
    next hfailure =>
      simp only [EStateM.Result.ok.injEq] at h
      exact lexes_of_atMost hfailure h.1
    next => cases h
  · intro h
    obtain ⟨hfailure, htokens⟩ := atMost_of_lexes h (Nat.lt_succ_self _)
    dsimp only
    rw [hfailure, htokens]
    exact ⟨_, rfl⟩

theorem Lexes.unique {s : Cursor} {ts us : List Token} (h₁ : Lexes s ts) (h₂ : Lexes s us) :
    ts = us := by
  induction h₁ generalizing us with
  | done h =>
      cases h₂ with
      | done h' => rfl
      | cons h' ht' hs' =>
          rw [h] at h'
          cases h'
          exact (ht' rfl).elim
  | cons h ht hs ih =>
      cases h₂ with
      | done h' =>
          rw [h] at h'
          cases h'
          exact (ht rfl).elim
      | cons h' ht' hs' =>
          rw [h] at h'
          cases h'
          rw [ih hs']

theorem HasTokens.unique {text : String} {ts us : List Token} (h₁ : HasTokens text ts)
    (h₂ : HasTokens text us) : ts = us :=
  (hasTokens_iff_lexes.1 h₁).unique (hasTokens_iff_lexes.1 h₂)

theorem Lexes.exists_next {s : Cursor} {ts : List Token} (h : Lexes s ts) :
    ∃ t stop, Lexer.next s = .ok t stop := by
  cases h with
  | done h => exact ⟨_, _, h⟩
  | cons h ht hs => exact ⟨_, _, h⟩

theorem Lexes.endOfText_notMem {s : Cursor} {ts : List Token} (h : Lexes s ts) :
    .endOfText ∉ ts := by
  induction h with
  | done h => simp
  | cons h ht hs ih => simp [ih, Ne.symm ht]

/-! ## Passing over a text -/

/-- The end can be read again and again. -/
def ReaderState.AtEnd (s : ReaderState) : Prop :=
  s.token = .endOfText ∧ s.cursor.ahead = []

namespace Reader

variable {s s' : ReaderState} {cursor : Cursor} {ts : List Token}

/-- From the token ahead to the end. -/
theorem lexes_of_passes (hnext : Lexer.next cursor = .ok s.token s.cursor)
    (h : Passes s ts s') (hend : s'.token = .endOfText) (hts : .endOfText ∉ ts) :
    Lexes cursor ts := by
  induction h generalizing cursor with
  | nil s =>
      rw [hend] at hnext
      exact .done hnext
  | cons hadvance hs ih =>
      rw [List.mem_cons, not_or] at hts
      exact .cons hnext (Ne.symm hts.1) (ih (advance_eq_ok hadvance).1 hend hts.2)

theorem passes_of_lexes (h : Lexes cursor ts) (hnext : Lexer.next cursor = .ok s.token s.cursor) :
    ∃ s', Passes s ts s' ∧ s'.AtEnd := by
  induction h generalizing s with
  | done h =>
      rw [h] at hnext
      simp only [EStateM.Result.ok.injEq] at hnext
      exact ⟨s, .nil s, hnext.1.symm, hnext.2 ▸ Lexer.ahead_eq_nil_of_next h⟩
  | cons h ht hs ih =>
      rw [h] at hnext
      simp only [EStateM.Result.ok.injEq] at hnext
      obtain ⟨rfl, rfl⟩ := hnext
      obtain ⟨t, stop, h₁⟩ := hs.exists_next
      have hadvance := advance_of_next (s := s) h₁
      obtain ⟨s', hpass, hend⟩ := ih (advance_eq_ok hadvance).1
      exact ⟨s', .cons hadvance hpass, hend⟩

theorem start_eq_ok {text : List Char} (h : start text = .ok s) :
    Lexer.next (.ofText text) = .ok s.token s.cursor ∧ s.depth = 0 := by
  simp only [start] at h
  split at h
  next token stop hnext =>
    cases h
    exact ⟨hnext, rfl⟩
  next => cases h

theorem start_eq_error {text : List Char} {e : LexError} (h : start text = .error e) :
    ∃ stop, Lexer.next (.ofText text) = .error e stop := by
  simp only [start] at h
  split at h
  next => cases h
  next fault stop hnext =>
    cases h
    exact ⟨stop, hnext⟩

theorem start_place {text : List Char} (h : start text = .ok s) :
    s.start = (Cursor.ofText text).skipBlanks.place := by
  simp only [start] at h
  split at h
  next =>
    cases h
    rfl
  next => cases h

/-- A text has tokens exactly when a reader can pass over them to the end. -/
theorem hasTokens_iff_passes {text : String} :
    HasTokens text ts ↔ ∃ s s', start text.toList = .ok s ∧ Passes s ts s' ∧ s'.AtEnd ∧
      .endOfText ∉ ts := by
  rw [hasTokens_iff_lexes]
  constructor
  · intro h
    have hmem := h.endOfText_notMem
    obtain ⟨t, stop, hnext⟩ := h.exists_next
    have hstart : start text.toList =
        .ok ⟨stop, t, (Cursor.ofText text.toList).skipBlanks.place, 0⟩ := by
      simp only [start, hnext]
    obtain ⟨s', hpass, hend⟩ := passes_of_lexes h (start_eq_ok hstart).1
    exact ⟨_, s', hstart, hpass, hend, hmem⟩
  · rintro ⟨s, s', hstart, hpass, hend, hmem⟩
    exact lexes_of_passes (start_eq_ok hstart).1 hpass hend.1 hmem

theorem expect_end (h : s.AtEnd) : ∃ s', expect .endOfText s = .ok () s' := by
  have hblanks : s.cursor.skipBlanks.ahead = [] := by simp [h.2]
  exact ⟨_, (expect_of_eq h.1).trans (advance_of_next (Lexer.next_of_ahead_eq_nil hblanks))⟩

end Reader

end QueryNotation
