import Mathlib.Data.List.Induction
import QueryNotation.Proofs.LexingPlaces
import QueryNotation.Proofs.StringSpellings

/-!
# Calls on one lexer

A lexer is asked to skip blanks, for one token, or for all tokens that are
left, one time after the other and also after errors. Whatever it has been
asked, it stands on its text, so that its place counts the lines and columns
of what has been read. An error points at the character that it is about.
-/

namespace QueryNotation

open Text

/-! ## Counting lines and columns -/

namespace Text.Position

/-- The place is where counting the characters of the text leads: only line feeds end a
line, and columns are counted behind the last of them. -/
structure IsTrue (text : List Char) (p : Position) : Prop where
  offset_le : p.offset ≤ text.length
  line : p.line = 1 + (text.take p.offset).count '\n'
  column : p.column = 1 + ((text.take p.offset).reverse.takeWhile (· ≠ '\n')).length

theorem line_start_after (front : List Char) :
    (start.after front).line = 1 + front.count '\n' := by
  induction front using List.reverseRecOn with
  | nil => rfl
  | append_singleton front c ih =>
      rw [after_append, after_cons, after_nil, List.count_append, List.count_singleton]
      by_cases hc : c = '\n'
      · simp [next, hc, ih, Nat.add_assoc]
      · simp [next, hc, ih]

theorem column_start_after (front : List Char) :
    (start.after front).column = 1 + (front.reverse.takeWhile (· ≠ '\n')).length := by
  induction front using List.reverseRecOn with
  | nil => rfl
  | append_singleton front c ih =>
      rw [after_append, after_cons, after_nil, List.reverse_append, List.reverse_singleton,
        List.singleton_append]
      by_cases hc : c = '\n'
      · simp [next, hc]
      · simp [next, hc, ih, Nat.add_assoc]

theorem isTrue_start_after (front rest : List Char) :
    (start.after front).IsTrue (front ++ rest) := by
  have hoffset : (start.after front).offset = front.length := by
    rw [offset_after]
    exact Nat.zero_add _
  refine ⟨?_, ?_, ?_⟩
  · rw [hoffset, List.length_append]
    exact Nat.le_add_right _ _
  · rw [hoffset, List.take_left, line_start_after]
  · rw [hoffset, List.take_left, column_start_after]

end Text.Position

theorem Text.Cursor.IsOn.isTrue {text : List Char} {s : Cursor} (h : s.IsOn text) :
    s.place.IsTrue text := by
  obtain ⟨front, htext, hplace⟩ := h
  rw [hplace, htext]
  exact Position.isTrue_start_after front s.ahead

/-! ## Errors -/

/-- The error points at a character of the text: at one that no token starts with and
that is still unread, at the quote that opens a string without end, or at the letter of
an escape that does not exist. -/
inductive LexError.PointsAt (text : List Char) (stop : Cursor) : LexError → Prop where
  | stray {fault : Fault} {c : Char} (hstray : fault.stray? = some c)
      (hc : text[stop.place.offset]? = some c) : PointsAt text stop ⟨fault, stop.place⟩
  | opening {quote : Char} {content written rest : List Char} {place : Position}
      (hquote : quote = '"' ∨ quote = '\x27') (h : Spelling quote content written)
      (hrest : rest = [] ∨ rest = ['\\'])
      (htext : text.drop place.offset = quote :: written ++ rest) :
      PointsAt text stop ⟨.unterminated, place⟩
  | escaped {quote letter : Char} {content written rest : List Char} {opening : Nat}
      (hquote : quote = '"' ∨ quote = '\x27') (h : Spelling quote content written)
      (hletter : letter ∉ escapes.map Prod.fst)
      (htext : text.drop opening = quote :: written ++ '\\' :: letter :: rest)
      (hplace : stop.place.offset = opening + (quote :: written ++ ['\\']).length) :
      PointsAt text stop ⟨.invalidEscape letter, stop.place⟩

theorem LexError.PointsAt.offset_lt {text : List Char} {stop : Cursor} {e : LexError}
    (h : e.PointsAt text stop) : e.place.offset < text.length := by
  cases h with
  | stray hstray hc => exact (List.getElem?_eq_some_iff.1 hc).1
  | opening hquote h hrest htext =>
      have hlength := congrArg List.length htext
      simp only [List.length_drop, List.length_append, List.length_cons] at hlength
      dsimp only
      omega
  | escaped hquote h hletter htext hplace =>
      have hlength := congrArg List.length htext
      simp only [List.length_drop, List.length_append, List.length_cons, List.length_nil] at hlength hplace
      dsimp only
      omega

theorem Scan.exists_quote_of_error {text : List Char} {fault : Fault}
    (h : (ofText text).result = .error fault) (hstray : fault.stray? = none) :
    ∃ quote rest, text = quote :: rest ∧ (quote = '"' ∨ quote = '\x27') := by
  cases text with
  | nil => cases h
  | cons c rest =>
      refine ⟨c, rest, rfl, ?_⟩
      simp only [ofText] at h
      split at h
      next => cases h
      next =>
        split at h
        next =>
          cases h
          cases hstray
        next =>
          split at h
          next hquote => simpa using hquote
          next =>
            split at h
            next => cases h
            next =>
              split at h
              next => cases h
              next =>
                cases h
                cases hstray

namespace Lexer

variable {text : List Char} {s stop : Cursor} {e : LexError}

theorem exists_quote_of_error (h : next s = .error e stop) (hstray : e.fault.stray? = none) :
    ∃ quote rest, s.skipBlanks.ahead = quote :: rest ∧ (quote = '"' ∨ quote = '\x27') := by
  simp only [next] at h
  split at h
  next => cases h
  next hresult => exact Scan.exists_quote_of_error hresult rfl
  next fault _ hresult =>
    cases h
    exact Scan.exists_quote_of_error hresult hstray

/-- Reading fails in the string that a quote opens at the cursor: in front of the letter
of an escape that does not exist, or else at the end of the text. -/
inductive FailsInString (s stop : Cursor) : LexError → Prop where
  | misspelled {quote letter : Char} {content written rest : List Char}
      (hquote : quote = '"' ∨ quote = '\x27') (h : Spelling quote content written)
      (hletter : letter ∉ escapes.map Prod.fst)
      (hahead : s.ahead = quote :: written ++ '\\' :: letter :: rest)
      (hstop : stop = ⟨letter :: rest, s.place.after (quote :: written ++ ['\\'])⟩) :
      FailsInString s stop ⟨.invalidEscape letter, stop.place⟩
  | unclosed {quote : Char} {content written rest : List Char}
      (hquote : quote = '"' ∨ quote = '\x27') (h : Spelling quote content written)
      (hrest : rest = [] ∨ rest = ['\\']) (hahead : s.ahead = quote :: written ++ rest)
      (hstop : stop = ⟨[], s.place.after (quote :: written ++ rest)⟩) :
      FailsInString s stop ⟨.unterminated, s.place⟩

theorem failsInString_of_error (h : next s = .error e stop) (hstray : e.fault.stray? = none) :
    FailsInString s.skipBlanks stop e := by
  obtain ⟨quote, rest, hahead, hquote⟩ := exists_quote_of_error h hstray
  obtain ⟨content, written, rest, hspelling, rfl, hhalts⟩ := Spelling.exists_halts quote rest
  have hcursor : s.skipBlanks = ⟨quote :: written ++ rest, s.skipBlanks.place⟩ := by
    rw [List.cons_append, ← hahead]
  rw [← next_skipBlanks, hcursor] at h
  cases hhalts with
  | closed rest =>
      rw [next_of_closed hquote hspelling] at h
      cases h
  | invalid rest hletter =>
      rw [next_of_invalid hquote hspelling hletter] at h
      cases h
      exact .misspelled hquote hspelling hletter hahead rfl
  | missing =>
      rw [next_of_unclosed hquote hspelling (.inl rfl)] at h
      cases h
      exact .unclosed hquote hspelling (.inl rfl) hahead rfl
  | cut =>
      rw [next_of_unclosed hquote hspelling (.inr rfl)] at h
      cases h
      exact .unclosed hquote hspelling (.inr rfl) hahead rfl

theorem pointsAt_of_error (hs : s.IsOn text) (h : next s = .error e stop) :
    e.PointsAt text stop := by
  have htext := hs.skipBlanks.ahead_eq.symm
  rcases next_eq_error h with ⟨c, hstray, rfl, hc, hplace⟩ | ⟨hstray, -, -⟩
  · obtain ⟨fault, place⟩ := e
    obtain rfl : place = s.skipBlanks.place := hplace
    rw [← htext, List.head?_drop] at hc
    exact .stray hstray hc
  · cases failsInString_of_error h hstray with
    | misspelled hquote hspelling hletter hahead hstop =>
        refine .escaped hquote hspelling hletter (htext.trans hahead) ?_
        rw [hstop]
        exact Position.offset_after _ _
    | unclosed hquote hspelling hrest hahead =>
        exact .opening hquote hspelling hrest (htext.trans hahead)

theorem isTrue_of_error (hs : s.IsOn text) (h : next s = .error e stop) : e.place.IsTrue text := by
  rcases next_eq_error h with ⟨-, -, -, -, hplace⟩ | ⟨-, -, hplace | hplace⟩
  · rw [hplace]
    exact (isOn_of_error hs h).isTrue
  · rw [hplace]
    exact hs.skipBlanks.isTrue
  · rw [hplace]
    exact (isOn_of_error hs h).isTrue

end Lexer

/-! ## Reading all that is left -/

namespace Lexing

variable {text : List Char} {s : Cursor} {e : LexError}

theorem isOn_stop (hs : s.IsOn text) : (ofCursor s).stop.IsOn text := by
  induction s using ofCursor_induction with
  | fault s e stop hnext =>
      rw [ofCursor_of_error hnext]
      exact Lexer.isOn_of_error hs hnext
  | done s stop hnext =>
      rw [ofCursor_of_end hnext]
      exact Lexer.isOn_of_next hs hnext
  | step s t stop hnext ht ih =>
      rw [ofCursor_of_ne hnext ht]
      exact ih (Lexer.isOn_of_next hs hnext)

/-- The fault is the one of the token at which reading stopped. -/
theorem exists_next_of_failure (hs : s.IsOn text) (h : (ofCursor s).failure = some e) :
    ∃ cursor, cursor.IsOn text ∧ Lexer.next cursor = .error e (ofCursor s).stop := by
  induction s using ofCursor_induction with
  | fault s e' stop hnext =>
      rw [ofCursor_of_error hnext] at h ⊢
      cases h
      exact ⟨s, hs, hnext⟩
  | done s stop hnext =>
      rw [ofCursor_of_end hnext] at h
      cases h
  | step s t stop hnext ht ih =>
      rw [ofCursor_of_ne hnext ht] at h ⊢
      exact ih (Lexer.isOn_of_next hs hnext) h

end Lexing

/-! ## Calls -/

/-- What a lexer can be asked for. -/
inductive LexerCall where
  | skip
  | next
  | all
  deriving DecidableEq, Repr

namespace LexerCall

/-- The call with the tokens that it reads. -/
def lexer : LexerCall → Lexer (List Token)
  | skip => do modify Cursor.skipBlanks; pure []
  | next => do pure [← Lexer.next]
  | all => Lexer.all

/-- Where the cursor is left. -/
def stop (call : LexerCall) (s : Cursor) : Cursor :=
  match call.lexer s with
  | .ok _ s' => s'
  | .error _ s' => s'

/-- Where the cursor is left by calls one after the other. -/
def runAll : List LexerCall → Cursor → Cursor
  | [], s => s
  | call :: calls, s => runAll calls (call.stop s)

theorem lexer_next (s : Cursor) :
    next.lexer s = match Lexer.next s with
      | .ok t s' => .ok [t] s'
      | .error e s' => .error e s' := by
  change EStateM.bind Lexer.next (fun t => EStateM.pure [t]) s = _
  unfold EStateM.bind
  cases Lexer.next s <;> rfl

variable {text : List Char} {s s' : Cursor} {t : Token} {e : LexError}

theorem stop_next_of_ok (h : Lexer.next s = .ok t s') : next.stop s = s' := by
  rw [stop, lexer_next, h]

theorem stop_next_of_error (h : Lexer.next s = .error e s') : next.stop s = s' := by
  rw [stop, lexer_next, h]

theorem stop_all (s : Cursor) : all.stop s = (Lexing.ofCursor s).stop := by
  simp only [stop, lexer, Lexer.all]
  cases (Lexing.ofCursor s).failure <;> rfl

/-- One call leaves the cursor on its text. -/
theorem isOn_stop (call : LexerCall) (hs : s.IsOn text) : (call.stop s).IsOn text := by
  cases call with
  | skip => exact hs.skipBlanks
  | next =>
      cases hnext : Lexer.next s with
      | ok t s' =>
          rw [stop_next_of_ok hnext]
          exact Lexer.isOn_of_next hs hnext
      | error e s' =>
          rw [stop_next_of_error hnext]
          exact Lexer.isOn_of_error hs hnext
  | all =>
      rw [stop_all]
      exact Lexing.isOn_stop hs

theorem isOn_runAll (calls : List LexerCall) (hs : s.IsOn text) : (runAll calls s).IsOn text := by
  induction calls generalizing s with
  | nil => exact hs
  | cons call calls ih => exact ih (isOn_stop call hs)

/-- A call that fails has failed to read one token from the text. -/
theorem exists_next_of_error {call : LexerCall} (hs : s.IsOn text)
    (h : call.lexer s = .error e s') :
    ∃ cursor, cursor.IsOn text ∧ Lexer.next cursor = .error e s' := by
  cases call with
  | skip => cases h
  | next =>
      rw [lexer_next] at h
      cases hnext : Lexer.next s with
      | ok t s₁ =>
          rw [hnext] at h
          cases h
      | error e₁ s₁ =>
          rw [hnext] at h
          cases h
          exact ⟨s, hs, hnext⟩
  | all =>
      simp only [lexer, Lexer.all] at h
      cases hfailure : (Lexing.ofCursor s).failure with
      | none =>
          rw [hfailure] at h
          cases h
      | some e₁ =>
          rw [hfailure] at h
          cases h
          exact Lexing.exists_next_of_failure hs hfailure

/-- After any calls the lexer knows the true place at which it stands, and an error of the
next call has the true place of the character that it points at. -/
theorem places_true (text : String) (calls : List LexerCall) :
    (runAll calls (.ofText text.toList)).place.IsTrue text.toList ∧
    ∀ (call : LexerCall) (e : LexError) (s' : Cursor),
      call.lexer (runAll calls (.ofText text.toList)) = .error e s' →
        e.place.IsTrue text.toList ∧ e.place.offset < text.length ∧ e.PointsAt text.toList s' := by
  have hon : (runAll calls (.ofText text.toList)).IsOn text.toList :=
    isOn_runAll calls (Cursor.isOn_ofText text.toList)
  refine ⟨hon.isTrue, fun call e s' h => ?_⟩
  obtain ⟨cursor, hcursor, hnext⟩ := exists_next_of_error hon h
  have hpoints := Lexer.pointsAt_of_error hcursor hnext
  refine ⟨Lexer.isTrue_of_error hcursor hnext, ?_, hpoints⟩
  rw [← String.length_toList]
  exact hpoints.offset_lt

/-- The second call fails inside a string, on the second line. The third one goes on
behind the backslash, and the last one fails at the character after the word. -/
theorem places_true_after_error :
    next.lexer (runAll [.next, .all, .next] (.ofText "t[\n'x\\q@".toList)) =
      .error ⟨.unexpected '@', ⟨2, 5, 7⟩⟩ ⟨['@'], ⟨2, 5, 7⟩⟩ ∧
    Text.Position.IsTrue "t[\n'x\\q@".toList ⟨2, 5, 7⟩ ∧
    LexError.PointsAt "t[\n'x\\q@".toList ⟨['@'], ⟨2, 5, 7⟩⟩ ⟨.unexpected '@', ⟨2, 5, 7⟩⟩ := by
  have hbehind : runAll [.next, .all, .next] (.ofText "t[\n'x\\q@".toList) =
      ⟨['@'], ⟨2, 5, 7⟩⟩ := by decide +kernel
  have herror : next.lexer (runAll [.next, .all, .next] (.ofText "t[\n'x\\q@".toList)) =
      .error ⟨.unexpected '@', ⟨2, 5, 7⟩⟩ ⟨['@'], ⟨2, 5, 7⟩⟩ := by
    rw [hbehind]
    rfl
  obtain ⟨htrue, -, hpoints⟩ := (places_true _ _).2 _ _ _ herror
  exact ⟨herror, htrue, hpoints⟩

end LexerCall

end QueryNotation
