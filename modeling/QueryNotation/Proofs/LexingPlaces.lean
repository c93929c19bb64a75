import QueryNotation.Proofs.CursorPlaces

/-!
# Where the tokens of a text stand

A text is read from the front to its end or to the first fault. Every token
that is read on the way can be read again by starting at its place, and it
starts before the fault.
-/

namespace QueryNotation

open Text

namespace Lexing

variable {text : List Char} {s stop : Cursor} {t : Token} {place : Position} {e : LexError}

theorem ofCursor_of_error (h : Lexer.next s = .error e stop) : ofCursor s = ⟨[], some e, stop⟩ := by
  rw [ofCursor, atMost, h]

/-- What holds where reading ends holds everywhere, if reading a token carries it back. -/
theorem ofCursor_induction {P : Cursor → Prop}
    (fault : ∀ s e stop, Lexer.next s = .error e stop → P s)
    (done : ∀ s stop, Lexer.next s = .ok .endOfText stop → P s)
    (step : ∀ s t stop, Lexer.next s = .ok t stop → t ≠ .endOfText → P stop → P s)
    (s : Cursor) : P s := by
  induction hn : s.ahead.length using Nat.strongRecOn generalizing s with
  | ind n ih =>
      cases hnext : Lexer.next s with
      | error e stop => exact fault s e stop hnext
      | ok t stop =>
          by_cases ht : t = .endOfText
          · subst ht
            exact done s stop hnext
          · have hlt := length_ahead_lt_of_next hnext ht
            exact step s t stop hnext ht (ih _ (hn ▸ hlt) stop rfl)

/-- Each token has been read by a cursor on the text. -/
theorem exists_next_of_mem (hs : s.IsOn text) (h : (t, place) ∈ (ofCursor s).tokens) :
    ∃ cursor stop, cursor.IsOn text ∧ Lexer.next cursor = .ok t stop ∧
      place = cursor.skipBlanks.place ∧ (ofCursor cursor).failure = (ofCursor s).failure := by
  induction s using ofCursor_induction with
  | fault s e stop hnext =>
      rw [ofCursor_of_error hnext] at h
      cases h
  | done s stop hnext =>
      have htokens := h
      rw [ofCursor_of_end hnext] at htokens
      cases List.mem_singleton.1 htokens
      exact ⟨s, stop, hs, hnext, rfl, rfl⟩
  | step s u stop hnext hu ih =>
      rw [ofCursor_of_ne hnext hu] at h ⊢
      rcases List.mem_cons.1 h with heq | hlater
      · cases heq
        exact ⟨s, stop, hs, hnext, rfl, by rw [ofCursor_of_ne hnext hu]⟩
      · exact ih (Lexer.isOn_of_next hs hnext) hlater

theorem offset_le_failure (hs : s.IsOn text) (h : (ofCursor s).failure = some e) :
    s.place.offset ≤ e.place.offset := by
  have hblanks (s : Cursor) : s.place.offset ≤ s.skipBlanks.place.offset :=
    Cursor.offset_le_advance s _
  induction s using ofCursor_induction with
  | fault s e' stop hnext =>
      rw [ofCursor_of_error hnext] at h
      cases h
      exact Nat.le_trans (hblanks s) (Lexer.offset_le_of_error hnext)
  | done s stop hnext =>
      rw [ofCursor_of_end hnext] at h
      cases h
  | step s u stop hnext hu ih =>
      rw [ofCursor_of_ne hnext hu] at h
      have hstop := ih (Lexer.isOn_of_next hs hnext) h
      obtain ⟨n, rfl⟩ := Lexer.exists_advance_of_next hnext
      exact Nat.le_trans (hblanks s) (Nat.le_trans (Cursor.offset_le_advance _ n) hstop)

/-- Every token starts before the fault. -/
theorem offset_lt_failure (hs : s.IsOn text) (hmem : (t, place) ∈ (ofCursor s).tokens)
    (h : (ofCursor s).failure = some e) : place.offset < e.place.offset := by
  obtain ⟨cursor, stop, hon, hnext, rfl, hfailure⟩ := exists_next_of_mem hs hmem
  rw [h] at hfailure
  have ht : t ≠ .endOfText := by
    rintro rfl
    rw [ofCursor_of_end hnext] at hfailure
    cases hfailure
  rw [ofCursor_of_ne hnext ht] at hfailure
  have hstop := Lexer.isOn_of_next hon hnext
  have hle := offset_le_failure hstop hfailure
  rw [← Lexer.next_skipBlanks] at hnext
  exact Nat.lt_of_lt_of_le (hon.skipBlanks.offset_lt hstop (length_ahead_lt_of_next hnext ht)) hle

/-- A new reading of the rest of the text from a token on starts with that token. -/
theorem next_drop_of_mem {text : String} (h : (t, place) ∈ (ofText text).tokens) :
    (∃ stop, Lexer.next (.ofText (text.toList.drop place.offset)) = .ok t stop) ∧
      (t = .endOfText → place.offset = text.length) := by
  obtain ⟨cursor, stop, hon, hnext, rfl, -⟩ := exists_next_of_mem (Cursor.isOn_ofText _) h
  constructor
  · rw [← hon.skipBlanks.ahead_eq]
    rw [← Lexer.next_skipBlanks] at hnext
    rcases Lexer.next_anywhere cursor.skipBlanks.ahead with
      ⟨u, rest, passed, hrest⟩ | ⟨fault, rest, passed, named, hrest⟩
    · cases (hrest cursor.skipBlanks.place).symm.trans hnext
      exact ⟨_, hrest .start⟩
    · cases (hrest cursor.skipBlanks.place).symm.trans hnext
  · rintro rfl
    have hlength := hon.skipBlanks.offset_add_length
    rwa [(Lexer.eq_skipBlanks_of_next hnext).1, List.length_nil, Nat.add_zero,
      String.length_toList] at hlength

/-! ## What is still to be read -/

/-- The tokens of `l` are those that were read before and those still to be read from
the cursor. -/
structure Continues (l : Lexing) (before : List (Token × Position)) (s : Cursor) : Prop where
  tokens : l.tokens = before ++ (ofCursor s).tokens
  failure : l.failure = (ofCursor s).failure

namespace Continues

variable {l : Lexing} {before : List (Token × Position)} (h : l.Continues before s)

include h

theorem exists_rest (hnext : Lexer.next s = .ok t stop) :
    ∃ after, l.tokens = before ++ (t, s.skipBlanks.place) :: after := by
  rw [h.tokens]
  by_cases ht : t = .endOfText
  · subst ht
    exact ⟨[], by rw [ofCursor_of_end hnext]⟩
  · exact ⟨_, by rw [ofCursor_of_ne hnext ht]; rfl⟩

theorem failure_eq (hnext : Lexer.next s = .error e stop) : l.failure = some e := by
  rw [h.failure, ofCursor_of_error hnext]

theorem step (hnext : Lexer.next s = .ok t stop) (ht : t ≠ .endOfText) :
    l.Continues (before ++ [(t, s.skipBlanks.place)]) stop := by
  obtain ⟨htokens, hfailure⟩ := h
  rw [ofCursor_of_ne hnext ht] at htokens hfailure
  exact ⟨by rw [htokens, List.append_assoc]; rfl, hfailure⟩

/-- The end can be read again. -/
theorem stay (hnext : Lexer.next s = .ok .endOfText stop) : l.Continues before stop := by
  obtain ⟨-, rfl⟩ := Lexer.eq_skipBlanks_of_next hnext
  have hagain := hnext
  rw [← Lexer.next_skipBlanks] at hagain
  obtain ⟨htokens, hfailure⟩ := h
  rw [ofCursor_of_end hnext] at htokens hfailure
  refine ⟨?_, ?_⟩ <;> rw [ofCursor_of_end hagain]
  · rw [s.skipBlanks_skipBlanks]
    exact htokens
  · exact hfailure

end Continues

end Lexing

theorem Lexer.all_eq_error_iff {s : Cursor} {e : LexError} :
    (∃ stop, all s = .error e stop) ↔ (Lexing.ofCursor s).failure = some e := by
  unfold all
  dsimp only
  cases (Lexing.ofCursor s).failure <;> simp

end QueryNotation
