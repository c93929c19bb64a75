import QueryNotation.Proofs.TokenPieces

/-!
# Cursors on a text

A cursor that moves over a text keeps standing on it: what is ahead is a
tail of the text, and the place is the one behind the characters before
it. Reading a token only moves the cursor forward. It stays where it is at
the end of the text, and in front of a character that no token starts with.
-/

namespace QueryNotation

open Text

namespace Text.Cursor

variable {text : List Char} {s : Cursor}

theorem place_skipBlanks (s : Cursor) :
    s.skipBlanks.place = s.place.after (s.ahead.takeWhile isBlank) := by
  have htake : s.ahead.take (s.ahead.takeWhile isBlank).length = s.ahead.takeWhile isBlank :=
    List.prefix_iff_eq_take.1 (List.takeWhile_prefix isBlank) |>.symm
  rw [skipBlanks, place_advance, htake]

theorem takeWhile_skipBlanks (s : Cursor) : s.skipBlanks.ahead.takeWhile isBlank = [] := by
  rw [ahead_skipBlanks]
  have hstop := List.head?_dropWhile_not isBlank s.ahead
  generalize s.ahead.dropWhile isBlank = rest at hstop ⊢
  cases rest with
  | nil => rfl
  | cons c rest => exact List.takeWhile_cons_of_neg (by simpa using hstop)

theorem skipBlanks_skipBlanks (s : Cursor) : s.skipBlanks.skipBlanks = s.skipBlanks := by
  rw [skipBlanks.eq_def s.skipBlanks, takeWhile_skipBlanks]
  rfl

/-- The cursor stands on the text. -/
def IsOn (text : List Char) (s : Cursor) : Prop :=
  ∃ front, text = front ++ s.ahead ∧ s.place = Position.start.after front

theorem isOn_ofText (text : List Char) : (ofText text).IsOn text := ⟨[], rfl, rfl⟩

theorem IsOn.advance (h : s.IsOn text) (n : Nat) : (s.advance n).IsOn text := by
  obtain ⟨front, htext, hplace⟩ := h
  refine ⟨front ++ s.ahead.take n, ?_, ?_⟩
  · rw [ahead_advance, List.append_assoc, List.take_append_drop, htext]
  · rw [place_advance, hplace, Position.after_append]

theorem IsOn.skipBlanks (h : s.IsOn text) : s.skipBlanks.IsOn text := h.advance _

theorem IsOn.offset_add_length (h : s.IsOn text) :
    s.place.offset + s.ahead.length = text.length := by
  obtain ⟨front, htext, hplace⟩ := h
  rw [hplace, Position.offset_after, htext, List.length_append]
  exact congrArg (· + s.ahead.length) (Nat.zero_add _)

theorem length_front {front : List Char} (hplace : s.place = Position.start.after front) :
    front.length = s.place.offset := by
  rw [hplace, Position.offset_after]
  exact (Nat.zero_add _).symm

theorem IsOn.ahead_eq (h : s.IsOn text) : s.ahead = text.drop s.place.offset := by
  obtain ⟨front, htext, hplace⟩ := h
  rw [htext, ← length_front hplace, List.drop_left]

/-- The place counts the lines and columns of what has been read. -/
theorem IsOn.place_eq (h : s.IsOn text) :
    s.place = Position.start.after (text.take s.place.offset) := by
  obtain ⟨front, htext, hplace⟩ := h
  rw [htext, ← length_front hplace, List.take_left, hplace]

theorem IsOn.offset_lt {stop : Cursor} (h : s.IsOn text) (hstop : stop.IsOn text)
    (hlt : stop.ahead.length < s.ahead.length) : s.place.offset < stop.place.offset := by
  have h₁ := h.offset_add_length
  have h₂ := hstop.offset_add_length
  omega

theorem offset_le_advance (s : Cursor) (n : Nat) :
    s.place.offset ≤ (s.advance n).place.offset := by
  rw [place_advance, Position.offset_after]
  exact Nat.le_add_right _ _

end Text.Cursor

/-! ## Faults -/

/-- The character that the fault is about, if it is that no token starts with it. -/
def Fault.stray? : Fault → Option Char
  | .unexpected c => some c
  | .loneEquals => some '='
  | .unterminated | .invalidEscape _ => none

namespace Scan

variable {text rest : List Char} {fault : Fault}

theorem stray?_quoted {quote : Char} {n : Nat} (h : quoted quote text = (.error fault, n)) :
    fault.stray? = none := by
  induction text using quoted.induct quote generalizing fault n with
  | case1 =>
      cases h
      rfl
  | case2 rest =>
      rw [quoted_quote] at h
      cases h
  | case3 hquote =>
      simp only [quoted, if_neg hquote, if_true] at h
      cases h
      rfl
  | case4 escaped rest hnone hquote =>
      simp only [quoted, if_neg hquote, if_true, hnone] at h
      cases h
      rfl
  | case5 escaped rest d hd result length hrest hquote ih =>
      rw [quoted_escape hquote hd, hrest] at h
      cases result with
      | ok content => cases h
      | error e =>
          cases h
          exact ih hrest
  | case6 c rest hquote hescape result length hrest ih =>
      rw [quoted_plain hquote hescape, hrest] at h
      cases result with
      | ok content => cases h
      | error e =>
          cases h
          exact ih hrest

/-- Nothing is taken of a text that starts with a stray character, and at least the
opening quote of one that starts with a faulty string. -/
theorem length_of_error {n : Nat} (h : ofText text = ⟨.error fault, n⟩) :
    (∃ c, fault.stray? = some c ∧ text.head? = some c ∧ n = 0) ∨
      (fault.stray? = none ∧ 0 < n) := by
  cases text with
  | nil => cases h
  | cons c rest =>
      simp only [ofText] at h
      split at h
      next => cases h
      next =>
        split at h
        next hequal =>
          cases h
          exact .inl ⟨'=', rfl, congrArg some hequal, rfl⟩
        next =>
          split at h
          next =>
            rcases hq : quoted c rest with ⟨e | content, length⟩ <;>
              simp only [string, hq, Except.map, Scan.mk.injEq] at h
            · obtain ⟨he, rfl⟩ := h
              cases he
              exact .inr ⟨stray?_quoted hq, Nat.succ_pos _⟩
            · cases h.1
          next =>
            split at h
            next => cases h
            next =>
              split at h
              next => cases h
              next =>
                cases h
                exact .inl ⟨c, rfl, rfl, rfl⟩

end Scan

/-! ## Moving forward -/

namespace Lexer

variable {text : List Char} {s stop : Cursor} {t : Token} {e : LexError}

theorem next_skipBlanks (s : Cursor) : next s.skipBlanks = next s := by
  simp only [next, Cursor.skipBlanks_skipBlanks]

theorem exists_advance_of_next (h : next s = .ok t stop) : ∃ n, stop = s.skipBlanks.advance n := by
  simp only [next] at h
  split at h
  next =>
    cases h
    exact ⟨_, rfl⟩
  next => cases h
  next => cases h

theorem exists_advance_of_error (h : next s = .error e stop) :
    ∃ n, stop = s.skipBlanks.advance n := by
  simp only [next] at h
  split at h
  next => cases h
  next =>
    cases h
    exact ⟨_, rfl⟩
  next =>
    cases h
    exact ⟨_, rfl⟩

theorem isOn_of_next (hs : s.IsOn text) (h : next s = .ok t stop) : stop.IsOn text := by
  obtain ⟨n, rfl⟩ := exists_advance_of_next h
  exact hs.skipBlanks.advance n

theorem isOn_of_error (hs : s.IsOn text) (h : next s = .error e stop) : stop.IsOn text := by
  obtain ⟨n, rfl⟩ := exists_advance_of_error h
  exact hs.skipBlanks.advance n

/-- A stray character is not passed, and names its own place. Of a faulty string some
characters are read, and the place is where it starts or where reading stopped. -/
theorem next_eq_error (h : next s = .error e stop) :
    (∃ c, e.fault.stray? = some c ∧ stop = s.skipBlanks ∧ stop.ahead.head? = some c ∧
      e.place = stop.place) ∨
    (e.fault.stray? = none ∧ stop.ahead.length < s.skipBlanks.ahead.length ∧
      (e.place = s.skipBlanks.place ∨ e.place = stop.place)) := by
  have hshorter {n : Nat} (hpos : 0 < n) (hhead : s.skipBlanks.ahead ≠ []) :
      (s.skipBlanks.advance n).ahead.length < s.skipBlanks.ahead.length := by
    have hlength := List.length_pos_iff.2 hhead
    rw [Cursor.ahead_advance, List.length_drop]
    omega
  have hhead : s.skipBlanks.ahead ≠ [] := by
    intro hnil
    rw [next_of_ahead_eq_nil hnil] at h
    cases h
  simp only [next] at h
  split at h
  next => cases h
  next hresult =>
    cases h
    rcases Scan.length_of_error (n := Scan.length _) (by rw [← hresult]) with
      ⟨c, hstray, -⟩ | ⟨-, hpos⟩
    · cases hstray
    · exact .inr ⟨rfl, hshorter hpos hhead, .inl rfl⟩
  next fault hfault hresult =>
    cases h
    rcases Scan.length_of_error (n := Scan.length _) (by rw [← hresult]) with
      ⟨c, hstray, hc, hzero⟩ | ⟨hstray, hpos⟩
    · rw [hzero]
      exact .inl ⟨c, hstray, rfl, hc, rfl⟩
    · exact .inr ⟨hstray, hshorter hpos hhead, .inr rfl⟩

theorem offset_le_of_error (h : next s = .error e stop) :
    s.skipBlanks.place.offset ≤ e.place.offset := by
  have hstop : s.skipBlanks.place.offset ≤ stop.place.offset := by
    obtain ⟨n, rfl⟩ := exists_advance_of_error h
    exact Cursor.offset_le_advance _ n
  rcases next_eq_error h with ⟨c, -, -, -, hplace⟩ | ⟨-, -, hplace | hplace⟩
  · rwa [hplace]
  · exact Nat.le_of_eq (congrArg Position.offset hplace.symm)
  · rwa [hplace]

/-- What is read does not depend on the place, and places move by what is read. -/
theorem next_anywhere (ahead : List Char) :
    (∃ t rest passed, ∀ p, next ⟨ahead, p⟩ = .ok t ⟨rest, p.after passed⟩) ∨
      ∃ fault rest passed named, ∀ p,
        next ⟨ahead, p⟩ = .error ⟨fault, p.after named⟩ ⟨rest, p.after passed⟩ := by
  have hskip (p : Position) : Cursor.skipBlanks ⟨ahead, p⟩ =
      ⟨ahead.dropWhile isBlank, p.after (ahead.takeWhile isBlank)⟩ := by
    rw [← Cursor.ahead_skipBlanks ⟨ahead, p⟩, ← Cursor.place_skipBlanks ⟨ahead, p⟩]
  simp only [next, hskip, Cursor.advance_eq, ← Position.after_append]
  cases (Scan.ofText (ahead.dropWhile isBlank)).result with
  | ok t => exact .inl ⟨t, _, _, fun p => rfl⟩
  | error fault => cases fault <;> exact .inr ⟨_, _, _, _, fun p => rfl⟩

end Lexer

/-! ## The token ahead -/

/-- The token ahead is the one that is read from the cursor. -/
structure ReaderState.ReadFrom (cursor : Cursor) (s : ReaderState) : Prop where
  next : Lexer.next cursor = .ok s.token s.cursor
  start : s.start = cursor.skipBlanks.place

theorem Reader.readFrom_of_start {text : List Char} {s : ReaderState}
    (h : Reader.start text = .ok s) : s.ReadFrom (.ofText text) :=
  ⟨(start_eq_ok h).1, start_place h⟩

theorem Reader.readFrom_of_advance {s s' : ReaderState} (h : advance s = .ok () s') :
    s'.ReadFrom s.cursor := ⟨(advance_eq_ok h).1, (advance_eq_ok h).2.1⟩

end QueryNotation
