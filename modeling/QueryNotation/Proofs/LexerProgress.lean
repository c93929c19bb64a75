import Mathlib.Data.List.TakeWhile
import Mathlib.Logic.Function.Iterate
import QueryNotation.Proofs.LexerHistory
import QueryNotation.Proofs.StrayCharacters

/-!
# A lexer moves on or stands still

A lexer that is asked for a token skips the blanks. Behind them it passes a
token, or it fails in a string and has at least passed the opening quote. Only
at the end of the text and in front of a stray character does it stand still,
and there it stays. So reading all tokens takes at most one round for each
character that is left and one for the end.
-/

namespace QueryNotation

open Text

/-! ## Blanks -/

/-- From the first offset to the second there are only blanks, and none stands there. -/
structure Text.SkipsBlanks (text : List Char) (i j : Nat) : Prop where
  le : i ≤ j
  le_length : j ≤ text.length
  blank : ∀ c ∈ (text.take j).drop i, isBlank c = true
  stop : ∀ c, text[j]? = some c → isBlank c = false

theorem Text.Cursor.IsOn.skipsBlanks {text : List Char} {s : Cursor} (h : s.IsOn text) :
    SkipsBlanks text s.place.offset s.skipBlanks.place.offset where
  le := offset_le_advance s _
  le_length := by
    rw [← h.skipBlanks.offset_add_length]
    exact Nat.le_add_right _ _
  blank := by
    intro c hc
    rw [place_skipBlanks, Position.offset_after, List.drop_take, Nat.add_sub_cancel_left,
      ← h.ahead_eq, ← List.prefix_iff_eq_take.1 (List.takeWhile_prefix isBlank)] at hc
    exact List.mem_takeWhile_imp hc
  stop := by
    intro c hc
    rw [← List.head?_drop, ← h.skipBlanks.ahead_eq, ahead_skipBlanks] at hc
    exact dropWhile_stops s.ahead c hc

/-! ## Standing still -/

namespace LexerCall

variable {s stop : Cursor} {e : LexError} {c : Char}

/-- If no call moves the cursor, then no calls do. -/
theorem runAll_eq_self (h : ∀ call : LexerCall, call.stop s = s) (calls : List LexerCall) :
    runAll calls s = s := by
  induction calls with
  | nil => rfl
  | cons call calls ih => rw [runAll, h call, ih]

theorem next_runAll_of_end (h : Lexer.next s = .ok .endOfText stop) (calls : List LexerCall) :
    Lexer.next (runAll calls stop) = .ok .endOfText stop := by
  obtain ⟨-, rfl⟩ := Lexer.eq_skipBlanks_of_next h
  rw [← Lexer.next_skipBlanks] at h
  rw [runAll_eq_self (fun call => ?_) calls, h]
  cases call with
  | skip => exact s.skipBlanks_skipBlanks
  | next => exact stop_next_of_ok h
  | all => rw [stop_all, Lexing.ofCursor_of_end h]

theorem next_runAll_of_stray (hc : e.fault.stray? = some c) (h : Lexer.next s = .error e stop)
    (calls : List LexerCall) : Lexer.next (runAll calls stop) = .error e stop := by
  have hagain : Lexer.next stop = .error e stop := Lexer.staysAt_of_error hc h
  have hskip : stop = s.skipBlanks := by
    rcases Lexer.next_eq_error h with ⟨-, -, hstop, -⟩ | ⟨hnone, -⟩
    · exact hstop
    · rw [hc] at hnone
      cases hnone
  rw [runAll_eq_self (fun call => ?_) calls, hagain]
  cases call with
  | skip =>
      rw [hskip]
      exact s.skipBlanks_skipBlanks
  | next => exact stop_next_of_error hagain
  | all => rw [stop_all, Lexing.ofCursor_of_error hagain]

end LexerCall

/-! ## One token -/

namespace Lexer

/-- What reading one token comes to, behind the blanks at the offset `start`. -/
inductive ReadsAt (text : List Char) (start : Nat) :
    EStateM.Result LexError Cursor Token → Prop where
  /-- The end is read again and again. -/
  | ended {stop : Cursor} (hstart : start = text.length) (hstop : stop.place.offset = start)
      (hagain : ∀ calls, next (LexerCall.runAll calls stop) = .ok .endOfText stop) :
      ReadsAt text start (.ok .endOfText stop)
  | passed {t : Token} {stop : Cursor} (ht : t ≠ .endOfText) (hlt : start < stop.place.offset)
      (hle : stop.place.offset ≤ text.length) : ReadsAt text start (.ok t stop)
  /-- The character is not read, whatever is called, and the failure is always the same. -/
  | stray {fault : Fault} {c : Char} {stop : Cursor} (hstray : fault.stray? = some c)
      (hc : text[start]? = some c) (hstop : stop.place.offset = start)
      (hagain : ∀ calls,
        next (LexerCall.runAll calls stop) = .error ⟨fault, stop.place⟩ stop) :
      ReadsAt text start (.error ⟨fault, stop.place⟩ stop)
  /-- Reading stops behind a backslash in a string, in front of a letter of no escape. -/
  | misspelled {quote letter : Char} {stop : Cursor} (hquote : quote = '"' ∨ quote = '\x27')
      (hopening : text[start]? = some quote) (hlt : start + 1 < stop.place.offset)
      (hbackslash : text[stop.place.offset - 1]? = some '\\')
      (hletter : letter ∉ escapes.map Prod.fst) (hc : text[stop.place.offset]? = some letter) :
      ReadsAt text start (.error ⟨.invalidEscape letter, stop.place⟩ stop)
  /-- Reading stops at the end of the text, in the string that has been opened. -/
  | unclosed {quote : Char} {place : Position} {stop : Cursor}
      (hquote : quote = '"' ∨ quote = '\x27') (hopening : text[start]? = some quote)
      (hplace : place.offset = start) (hlt : start < stop.place.offset)
      (hstop : stop.place.offset = text.length) :
      ReadsAt text start (.error ⟨.unterminated, place⟩ stop)

variable {text : List Char} {s stop : Cursor} {t : Token} {e : LexError}

theorem readsAt_of_ok (hs : s.IsOn text) (h : next s = .ok t stop) :
    ReadsAt text s.skipBlanks.place.offset (.ok t stop) := by
  have hlength := (isOn_of_next hs h).offset_add_length
  by_cases ht : t = .endOfText
  · subst ht
    have hagain := LexerCall.next_runAll_of_end h
    obtain ⟨hnil, rfl⟩ := eq_skipBlanks_of_next h
    rw [hnil] at hlength
    exact .ended hlength rfl hagain
  · have hlt := hs.skipBlanks.offset_lt (isOn_of_next hs h)
      (Lexing.length_ahead_lt_of_next (next_skipBlanks s ▸ h) ht)
    exact .passed ht hlt (by omega)

theorem readsAt_of_stray {c : Char} (hs : s.IsOn text) (hc : e.fault.stray? = some c)
    (h : next s = .error e stop) : ReadsAt text s.skipBlanks.place.offset (.error e stop) := by
  obtain ⟨fault, place⟩ := e
  have hagain := LexerCall.next_runAll_of_stray hc h
  rcases next_eq_error h with ⟨d, hd, rfl, hhead, rfl⟩ | ⟨hnone, -⟩
  · rw [hs.skipBlanks.ahead_eq, List.head?_drop] at hhead
    exact .stray hd hhead rfl hagain
  · rw [hc] at hnone
    cases hnone

theorem readsAt_of_string (hs : s.IsOn text) (hnone : e.fault.stray? = none)
    (h : next s = .error e stop) : ReadsAt text s.skipBlanks.place.offset (.error e stop) := by
  have hget (n : Nat) : text[s.skipBlanks.place.offset + n]? = s.skipBlanks.ahead[n]? := by
    rw [hs.skipBlanks.ahead_eq, List.getElem?_drop]
  have hlength := hs.skipBlanks.offset_add_length
  cases failsInString_of_error h hnone with
  | @misspelled quote letter content written rest hquote hspelling hletter hahead hstop =>
      -- The quote, the spelling and the backslash have been read.
      have hoffset : stop.place.offset = s.skipBlanks.place.offset + (written.length + 1 + 1) := by
        rw [hstop, Position.offset_after, List.length_append]
        rfl
      refine .misspelled hquote ?_ ?_ ?_ hletter ?_
      · rw [← Nat.add_zero s.skipBlanks.place.offset, hget, hahead]
        rfl
      · rw [hoffset]
        omega
      · rw [hoffset, ← Nat.add_assoc, Nat.add_sub_cancel, hget, hahead]
        simp
      · rw [hoffset, hget, hahead]
        simp
  | @unclosed quote content written rest hquote hspelling hrest hahead hstop =>
      have hoffset : stop.place.offset = text.length := by
        rw [hstop, Position.offset_after, ← hahead, hlength]
      refine .unclosed hquote ?_ rfl ?_ hoffset
      · rw [← Nat.add_zero s.skipBlanks.place.offset, hget, hahead]
        rfl
      · rw [hoffset, ← hlength, hahead]
        simp

theorem readsAt_next (hs : s.IsOn text) : ReadsAt text s.skipBlanks.place.offset (next s) := by
  cases h : next s with
  | ok t stop => exact readsAt_of_ok hs h
  | error e stop =>
      cases hc : e.fault.stray? with
      | some c => exact readsAt_of_stray hs hc h
      | none => exact readsAt_of_string hs hc h

end Lexer

/-! ## All tokens -/

namespace Lexing

/-- What reading ends with, behind the tokens that were read before. -/
def outcome (before : List Token) (l : Lexing) : EStateM.Result LexError Cursor (List Token) :=
  match l.failure with
  | none => .ok (before ++ l.tokens.map (·.1)) l.stop
  | some e => .error e l.stop

theorem outcome_cons (before : List Token) (t : Token × Position) (l : Lexing) :
    (l.cons t).outcome before = l.outcome (before ++ [t.1]) := by
  unfold outcome cons
  cases l.failure <;> simp

theorem all_eq_outcome (s : Cursor) : Lexer.all s = (ofCursor s).outcome [] := by
  unfold Lexer.all outcome
  dsimp only
  cases (ofCursor s).failure <;> rfl

/-- Every token but the end takes a character. -/
theorem length_tokens_le (s : Cursor) : (ofCursor s).tokens.length ≤ s.ahead.length + 1 := by
  induction s using ofCursor_induction with
  | fault s e stop hnext =>
      rw [ofCursor_of_error hnext]
      exact Nat.zero_le _
  | done s stop hnext =>
      rw [ofCursor_of_end hnext]
      exact Nat.succ_le_succ (Nat.zero_le _)
  | step s t stop hnext ht ih =>
      have hlt := length_ahead_lt_of_next hnext ht
      rw [ofCursor_of_ne hnext ht, cons, List.length_cons]
      omega

end Lexing

namespace Lexer

variable {s stop : Cursor} {t : Token} {e : LexError} {before tokens : List Token}
  {after : List Token → Lexer (List Token)}

/-- One round of reading all tokens. Another token is put behind those read before, and
only the end of the text is not followed by another round. -/
def allRound (after : List Token → Lexer (List Token)) (before : List Token) :
    Lexer (List Token) := do
  let token ← next
  if token = .endOfText then pure (before ++ [token]) else after (before ++ [token])

theorem allRound_of_error (h : next s = .error e stop) :
    allRound after before s = .error e stop := by
  change EStateM.bind next _ s = _
  rw [EStateM.bind, h]

theorem allRound_of_ok (h : next s = .ok t stop) : allRound after before s =
    if t = .endOfText then .ok (before ++ [t]) stop else after (before ++ [t]) stop := by
  change EStateM.bind next _ s = _
  rw [EStateM.bind, h]
  dsimp only
  split <;> rfl

/-- More rounds than there are characters left are enough. -/
theorem iterate_allRound {n : Nat} (hn : s.ahead.length < n) :
    allRound^[n] after before s = (Lexing.ofCursor s).outcome before := by
  induction n generalizing s before with
  | zero => exact (Nat.not_lt_zero _ hn).elim
  | succ n ih =>
      rw [Function.iterate_succ_apply']
      cases hnext : next s with
      | error e stop =>
          rw [allRound_of_error hnext, Lexing.ofCursor_of_error hnext]
          rfl
      | ok t stop =>
          rw [allRound_of_ok hnext]
          by_cases ht : t = .endOfText
          · subst ht
            rw [if_pos rfl, Lexing.ofCursor_of_end hnext]
            rfl
          · have hlt := Lexing.length_ahead_lt_of_next hnext ht
            rw [if_neg ht, ih (by omega), Lexing.ofCursor_of_ne hnext ht, Lexing.outcome_cons]

theorem length_le_of_all (h : all s = .ok tokens stop) : tokens.length ≤ s.ahead.length + 1 := by
  rw [Lexing.all_eq_outcome, Lexing.outcome] at h
  cases hfailure : (Lexing.ofCursor s).failure with
  | some e =>
      rw [hfailure] at h
      cases h
  | none =>
      rw [hfailure] at h
      cases h
      rw [List.nil_append, List.length_map]
      exact Lexing.length_tokens_le s

end Lexer

namespace LexerCall

/-- Whatever has been called, the next token is passed with at least one character behind
the blanks, or is the end, or reading fails: in front of a stray character for good, and
in a string behind the opening quote. All tokens that are left are read in at most one
round for each character that is left and one for the end. -/
theorem moves_on_or_stands_still (text : String) (calls : List LexerCall) {s : Cursor}
    (hs : runAll calls (.ofText text.toList) = s) :
    (∃ start, SkipsBlanks text.toList s.place.offset start ∧
      Lexer.ReadsAt text.toList start (Lexer.next s)) ∧
    (∀ rounds, text.length - s.place.offset < rounds →
      ∀ after, Lexer.allRound^[rounds] after [] s = Lexer.all s) ∧
    ∀ tokens stop, Lexer.all s = .ok tokens stop →
      tokens.length ≤ text.length - s.place.offset + 1 := by
  have hon : s.IsOn text.toList := hs ▸ isOn_runAll calls (Cursor.isOn_ofText text.toList)
  have hleft : text.length - s.place.offset = s.ahead.length := by
    rw [← String.length_toList, ← hon.offset_add_length, Nat.add_sub_cancel_left]
  rw [hleft]
  refine ⟨⟨_, hon.skipsBlanks, Lexer.readsAt_next hon⟩, fun rounds hrounds after => ?_,
    fun tokens stop hall => Lexer.length_le_of_all hall⟩
  rw [Lexer.iterate_allRound hrounds, Lexing.all_eq_outcome]

/-- Behind a parenthesis four characters are left, and five tokens are read in five
rounds. Behind a string that fails and a word, an equals sign stops all that follows. -/
theorem five_rounds_and_stray_equals :
    (∃ s stop, runAll [.next] (.ofText "(a+b)".toList) = s ∧
      Lexer.all s =
        .ok [.word "a", .symbol .plus, .word "b", .symbol .closeParen, .endOfText] stop ∧
      "(a+b)".length - s.place.offset = 4 ∧ 5 ≤ "(a+b)".length - s.place.offset + 1 ∧
      ∀ after, Lexer.allRound^[5] after [] s = Lexer.all s) ∧
    ∃ s start, runAll [.next, .next] (.ofText "'b\\q =".toList) = s ∧
      SkipsBlanks "'b\\q =".toList s.place.offset start ∧
      Lexer.ReadsAt "'b\\q =".toList start
        (.error ⟨.loneEquals, ⟨1, 6, 5⟩⟩ ⟨['='], ⟨1, 6, 5⟩⟩) := by
  constructor
  · have hopen : runAll [.next] (.ofText "(a+b)".toList) = ⟨"a+b)".toList, ⟨1, 2, 1⟩⟩ := by rfl
    have hall : Lexer.all ⟨"a+b)".toList, ⟨1, 2, 1⟩⟩ =
        .ok [.word "a", .symbol .plus, .word "b", .symbol .closeParen, .endOfText]
          ⟨[], ⟨1, 6, 5⟩⟩ := by rfl
    have hleft : "(a+b)".length - 1 = 4 := by decide
    obtain ⟨-, hrounds, hlength⟩ := moves_on_or_stands_still _ _ hopen
    have hrun := hrounds 5 (Nat.lt_succ_of_le (Nat.le_of_eq hleft))
    exact ⟨_, _, hopen, hall, hleft, hlength _ _ hall, hrun⟩
  · have hbehind : runAll [.next, .next] (.ofText "'b\\q =".toList) =
        ⟨" =".toList, ⟨1, 5, 4⟩⟩ := by rfl
    have herror : Lexer.next ⟨" =".toList, ⟨1, 5, 4⟩⟩ =
        .error ⟨.loneEquals, ⟨1, 6, 5⟩⟩ ⟨['='], ⟨1, 6, 5⟩⟩ := by rfl
    obtain ⟨⟨start, hblanks, hreads⟩, -⟩ := moves_on_or_stands_still _ _ hbehind
    rw [herror] at hreads
    exact ⟨_, start, hbehind, hblanks, hreads⟩

end LexerCall

end QueryNotation
