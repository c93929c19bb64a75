import QueryNotation.Proofs.CallProgress

/-!
# Stray characters

No token starts with a stray character, and reading does not pass it. Once
a call has failed at one, the cursor stays there. Whatever token has been
left ahead, a call that returns needs one more token from the text, so that
all later calls fail too.
-/

namespace QueryNotation

open Text

/-- The cursor stands in front of what cannot be read, and stays there. -/
def Lexer.StaysAt (e : LexError) (s : Cursor) : Prop := next s = .error e s

variable {s stop : Cursor} {e : LexError} {c : Char}

theorem Lexer.staysAt_of_error (hc : e.fault.stray? = some c) (h : next s = .error e stop) :
    StaysAt e stop := by
  rcases next_eq_error h with ⟨-, -, rfl, -⟩ | ⟨hnone, -⟩
  · rw [StaysAt, next_skipBlanks, h]
  · rw [hc] at hnone
    cases hnone

theorem Lexer.StaysAt.place_eq (h : StaysAt e s) (hc : e.fault.stray? = some c) :
    s.ahead.head? = some c ∧ s.place = e.place := by
  rcases next_eq_error h with ⟨d, hd, -, hhead, hplace⟩ | ⟨hnone, -⟩
  · rw [hc] at hd
    cases hd
    exact ⟨hhead, hplace.symm⟩
  · rw [hc] at hnone
    cases hnone

/-! ## Failing at a stray character -/

/-- A failure at a stray character leaves the cursor in front of it. -/
def strayStops : Contract where
  returns _ _ := True
  fails _ e s' := ∀ fault c, e = .lexical fault → fault.fault.stray? = some c →
    Lexer.StaysAt fault s'.cursor

theorem strayStops_isLawful : strayStops.IsLawful where
  refl _ := trivial
  trans _ _ := trivial
  fails_after _ h := h
  read _ := trivial
  fault _ hnext := by
    rintro fault c hfault hc
    cases hfault
    exact Lexer.staysAt_of_error hc hnext
  unexpected _ _ _ _ h := nomatch h
  descend _ := trivial
  tooDeep _ _ _ h := nomatch h
  restore _ := trivial

theorem strayStops_allowsClauses : strayStops.AllowsClauses :=
  fun _ h fault _ hfault => (Reader.clauseOfCall_ne_lexical fault (hfault ▸ h)).elim

/-! ## Calls after the failure -/

/-- The cursor stays where it is, and nothing else can go wrong with the text. -/
def stayingAt (e : LexError) (cursor : Cursor) : Contract where
  returns s s' := s.cursor = cursor → s'.cursor = cursor
  fails s e' s' := s.cursor = cursor →
    s'.cursor = cursor ∧ ∀ fault, e' = .lexical fault → fault = e

theorem stayingAt_isLawful (h : Lexer.StaysAt e stop) : (stayingAt e stop).IsLawful where
  refl _ hs := hs
  trans h h' hs := h' (h hs)
  fails_after h h' hs := h' (h hs)
  read hnext hs := by
    rw [hs, h] at hnext
    cases hnext
  fault _ hnext hs := by
    rw [hs, h] at hnext
    cases hnext
    exact ⟨rfl, fun fault hfault => (ReadError.lexical.inj hfault).symm⟩
  unexpected _ _ hs := ⟨hs, fun _ h => nomatch h⟩
  descend _ hs := hs
  tooDeep _ hs := ⟨hs, fun _ h => nomatch h⟩
  restore h hs := h hs

theorem stayingAt_allowsClauses : (stayingAt e stop).AllowsClauses := fun h hclause hs =>
  ⟨h hs, fun fault hfault => (Reader.clauseOfCall_ne_lexical fault (hfault ▸ hclause)).elim⟩

namespace Call

/-- No token is left to be passed, and so no call returns. -/
theorem fails_of_staysAt {s : ReaderState} (h : Lexer.StaysAt e s.cursor) (call : Call) :
    ∃ e' s', call.reader.outcome s = (.error e', s') ∧ s'.cursor = s.cursor ∧
      ∀ fault, e' = .lexical fault → fault = e := by
  cases hcall : call.reader.outcome s with
  | mk result s' =>
      cases result with
      | ok reply =>
          -- Whatever token has been left ahead, passing it reads the one behind it.
          obtain ⟨t, ts, hpasses⟩ := exists_passes (Reader.eq_ok_of_outcome hcall)
          obtain ⟨-, s₁, hadvance, -⟩ := hpasses.cons_inv
          rw [Reader.advance_of_fault h] at hadvance
          cases hadvance
      | error e' =>
          have hrun := Contract.Meets.call (stayingAt_isLawful h) stayingAt_allowsClauses call s
          rw [Reader.eq_error_of_outcome hcall] at hrun
          exact ⟨e', s', rfl, hrun rfl⟩

theorem runAll_of_staysAt {s : ReaderState} (h : Lexer.StaysAt e s.cursor) (calls : List Call) :
    (runAll calls s).2.cursor = s.cursor ∧
      ∀ result ∈ (runAll calls s).1, ∃ e', result = .error e' ∧
        ∀ fault, e' = .lexical fault → fault = e := by
  induction calls generalizing s with
  | nil => exact ⟨rfl, fun result hresult => nomatch hresult⟩
  | cons call calls ih =>
      obtain ⟨e', s', hcall, hcursor, hlexical⟩ := fails_of_staysAt h call
      obtain ⟨hend, hresults⟩ := ih (hcursor ▸ h)
      rw [runAll, hcall]
      refine ⟨hend.trans hcursor, fun result hresult => ?_⟩
      rcases List.mem_cons.1 hresult with rfl | hlater
      · exact ⟨e', rfl, hlexical⟩
      · exact hresults result hlater

/-- After a failure at a stray character the reader stands in front of it for good:
all later calls fail, and when they fail to read the text, then with the same error. -/
theorem stray_character_stays {text : String} {s s₁ : ReaderState} {before : List Call}
    {call : Call} (hstart : Reader.start text.toList = .ok s) (hc : e.fault.stray? = some c)
    (hcall : call.reader.outcome (runAll before s).2 = (.error (.lexical e), s₁)) :
    text.toList[e.place.offset]? = some c ∧
      ∀ after : List Call,
        (runAll after s₁).2.cursor = ⟨text.toList.drop e.place.offset, e.place⟩ ∧
        ∀ result ∈ (runAll after s₁).1, ∃ e', result = .error e' ∧
          ∀ fault, e' = .lexical fault → fault = e := by
  have hstays : Lexer.StaysAt e s₁.cursor := by
    have hrun := Contract.Meets.call strayStops_isLawful strayStops_allowsClauses call
      (runAll before s).2
    rw [Reader.eq_error_of_outcome hcall] at hrun
    exact hrun e c rfl hc
  obtain ⟨hhead, hplace⟩ := hstays.place_eq hc
  have hon : s₁.cursor.IsOn text.toList := by
    have hbefore := (runAll_keepsOn text.toList before s (Reader.isPast_of_start hstart)).1
    exact (keepsOn_of_outcome text.toList hcall hbefore).1.isOn
  have hcursor : s₁.cursor = ⟨text.toList.drop e.place.offset, e.place⟩ := by
    rw [← hplace, ← hon.ahead_eq]
  refine ⟨?_, fun after => ?_⟩
  · rw [← List.head?_drop, ← hplace, ← hon.ahead_eq]
    exact hhead
  · rw [← hcursor]
    exact runAll_of_staysAt hstays after

/-- The call for an item fails at `b`, and the call for an expression behind it. -/
theorem stray_at_sign_stays : ∃ s s₁, Reader.start "a b+@ c".toList = .ok s ∧
    Call.expression.reader.outcome (runAll [.directive] s).2 =
      (.error (.lexical ⟨.unexpected '@', ⟨1, 5, 4⟩⟩), s₁) ∧
    ∀ after : List Call, (runAll after s₁).2.cursor = ⟨"@ c".toList, ⟨1, 5, 4⟩⟩ := by
  have hstart : Reader.start "a b+@ c".toList =
      .ok ⟨⟨" b+@ c".toList, ⟨1, 2, 1⟩⟩, .word "a", .start, 0⟩ := by rfl
  have hsum : Call.expression.reader.outcome (runAll [.directive]
      ⟨⟨" b+@ c".toList, ⟨1, 2, 1⟩⟩, .word "a", .start, 0⟩).2 =
        (.error (.lexical ⟨.unexpected '@', ⟨1, 5, 4⟩⟩),
          ⟨⟨"@ c".toList, ⟨1, 5, 4⟩⟩, .symbol .plus, ⟨1, 5, 4⟩, 0⟩) := by rfl
  exact ⟨_, _, hstart, hsum, fun after => ((stray_character_stays hstart rfl hsum).2 after).1⟩

end Call

end QueryNotation
