import QueryNotation.Text.Cursor
import QueryNotation.Token.Scan

/-!
# Reading tokens

Reading moves a cursor over a text, token by token.  A failure leaves the cursor where reading
stopped, and reading may go on from there.  `Lexing` is a whole text read from the front to its
end or to the first failure.
-/

namespace QueryNotation

open Text

/-- A fault and the place that it names: the opening quote of a string without end, and for all
other faults the character where reading stopped. -/
structure LexError where
  fault : Fault
  place : Position
  deriving DecidableEq, Repr

def LexError.message (e : LexError) : String :=
  match e.fault with
  | .unexpected found => s!"unexpected character '{found}' at {e.place.describe}"
  | .loneEquals => s!"unexpected '=' at {e.place.describe} (did you mean '==' or '!='?)"
  | .unterminated => s!"unterminated string starting at {e.place.describe}"
  | .invalidEscape found => s!"invalid escape sequence '\\{found}' at {e.place.describe}"

/-- Programs that read from a cursor and may fail. -/
abbrev Lexer := EStateM LexError Cursor

namespace Lexer

def next : Lexer Token := fun s =>
  let start := s.skipBlanks
  let scan := Scan.ofText start.ahead
  let stop := start.advance scan.length
  match scan.result with
  | .ok token => .ok token stop
  | .error .unterminated => .error ⟨.unterminated, start.place⟩ stop
  | .error fault => .error ⟨fault, stop.place⟩ stop

end Lexer

/-- The tokens of a text with their places up to the end or the first failure, the failure, and
the cursor after the last step. -/
structure Lexing where
  tokens : List (Token × Position)
  failure : Option LexError
  stop : Cursor

namespace Lexing

def cons (token : Token × Position) (l : Lexing) : Lexing := { l with tokens := token :: l.tokens }

def atMost : Nat → Cursor → Lexing
  | 0, s => ⟨[], none, s⟩
  | n + 1, s =>
    match Lexer.next s with
    | .error e stop => ⟨[], some e, stop⟩
    | .ok .endOfText stop => ⟨[(.endOfText, s.skipBlanks.place)], none, stop⟩
    | .ok token stop => (atMost n stop).cons (token, s.skipBlanks.place)

/-- Reads to the end.  Every token but the last takes a character, so there are no more tokens
than characters left and the end. -/
def ofCursor (s : Cursor) : Lexing := atMost (s.ahead.length + 1) s

theorem length_ahead_lt_of_next {s stop : Cursor} {token : Token}
    (h : Lexer.next s = .ok token stop) (ht : token ≠ .endOfText) :
    stop.ahead.length < s.ahead.length := by
  simp only [Lexer.next] at h
  have hle : s.skipBlanks.ahead.length ≤ s.ahead.length := by
    rw [Cursor.ahead_skipBlanks]
    exact (List.dropWhile_sublist _).length_le
  split at h
  next t hr =>
    simp only [EStateM.Result.ok.injEq] at h
    obtain ⟨rfl, rfl⟩ := h
    cases hs : s.skipBlanks.ahead with
    | nil =>
        rw [hs] at hr
        exact absurd (Except.ok.inj hr).symm ht
    | cons c rest =>
        rw [hs] at hr hle
        have hpos := Scan.ofText_length_pos hr
        simp only [Cursor.ahead_advance, List.length_drop, hs, List.length_cons] at hle ⊢
        omega
  next => simp at h
  next => simp at h

/-- A text that is read without a failure is read to its end. -/
theorem getLast?_atMost {n : Nat} {s : Cursor} (hn : s.ahead.length < n)
    (h : (atMost n s).failure = none) :
    ∃ place, (atMost n s).tokens.getLast? = some (.endOfText, place) := by
  induction n generalizing s with
  | zero => omega
  | succ n ih =>
      unfold atMost at h ⊢
      split at h
      next => simp at h
      next stop hnext => exact ⟨s.skipBlanks.place, by simp⟩
      next token stop hne hnext =>
        have hlt := length_ahead_lt_of_next hnext hne
        obtain ⟨place, hplace⟩ := ih (by omega) h
        exact ⟨place, by simp [cons, List.getLast?_cons, hplace]⟩

theorem getLast?_ofCursor {s : Cursor} (h : (ofCursor s).failure = none) :
    ∃ place, (ofCursor s).tokens.getLast? = some (.endOfText, place) :=
  getLast?_atMost (Nat.lt_succ_self _) h

def ofText (text : String) : Lexing := ofCursor (.ofText text.toList)

end Lexing

/-- Reads all the tokens that are left, the end of the text included. -/
def Lexer.all : Lexer (List Token) := fun s =>
  let lexing := Lexing.ofCursor s
  match lexing.failure with
  | none => .ok (lexing.tokens.map (·.1)) lexing.stop
  | some e => .error e lexing.stop

end QueryNotation
