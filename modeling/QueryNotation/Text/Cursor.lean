import QueryNotation.Text.Blank
import QueryNotation.Text.Position

/-!
# Cursors

A cursor is a place in a text together with the characters that are still unread.  Moving a
cursor never changes the text: `ahead` of the moved cursor is a tail of the old one, and the place
moves by the characters in between.
-/

namespace QueryNotation.Text

/-- The unread part of a text and the place where it starts. -/
structure Cursor where
  ahead : List Char
  place : Position
  deriving DecidableEq, Repr, Inhabited

namespace Cursor

/-- The cursor before the first character of a text. -/
def ofText (text : List Char) : Cursor := ⟨text, .start⟩

/-- The cursor `n` characters further on, or at the end if fewer are left. -/
def advance (s : Cursor) : Nat → Cursor
  | 0 => s
  | n + 1 =>
    match s.ahead with
    | [] => s
    | c :: rest => advance ⟨rest, s.place.next c⟩ n

/-- The cursor at the next character that is not blank. -/
def skipBlanks (s : Cursor) : Cursor := s.advance (s.ahead.takeWhile isBlank).length

theorem advance_eq (n : Nat) (s : Cursor) :
    s.advance n = ⟨s.ahead.drop n, s.place.after (s.ahead.take n)⟩ := by
  induction n generalizing s with
  | zero => simp [advance]
  | succ n ih =>
      obtain ⟨ahead, place⟩ := s
      cases ahead with
      | nil => simp [advance]
      | cons c rest => simp [advance, ih]

@[simp] theorem ahead_advance (n : Nat) (s : Cursor) :
    (s.advance n).ahead = s.ahead.drop n := by simp [advance_eq]

@[simp] theorem place_advance (n : Nat) (s : Cursor) :
    (s.advance n).place = s.place.after (s.ahead.take n) := by simp [advance_eq]

@[simp] theorem ahead_skipBlanks (s : Cursor) :
    s.skipBlanks.ahead = s.ahead.dropWhile isBlank := by
  obtain ⟨ahead, place⟩ := s
  simp only [skipBlanks, ahead_advance]
  induction ahead with
  | nil => rfl
  | cons c rest ih => by_cases h : isBlank c <;> simp [h, ih]

end Cursor

end QueryNotation.Text
