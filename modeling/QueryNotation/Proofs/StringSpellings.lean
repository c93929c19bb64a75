import QueryNotation.Proofs.TokenPieces

/-!
# Spellings of strings

Between quotes a character stands for itself or is written as an escape,
so that a string has many spellings. A text behind an opening quote is
the spelling of some content as far as it goes. What stops it there is the
closing quote, an escape that does not exist, or the end of the text, and
this decides what is read.
-/

namespace QueryNotation

open Text

/-- The letters of the escapes, with the characters that they stand for. -/
def escapes : List (Char × Char) :=
  [('n', '\n'), ('t', '\t'), ('r', '\r'), ('"', '"'), ('\x27', '\x27'), ('\\', '\\')]

theorem unescape?_eq_some_iff {letter c : Char} :
    unescape? letter = some c ↔ (letter, c) ∈ escapes := by
  unfold unescape?
  split <;> simp_all [escapes, eq_comm]

theorem unescape?_eq_none_iff {letter : Char} :
    unescape? letter = none ↔ letter ∉ escapes.map Prod.fst := by
  simp only [Option.eq_none_iff_forall_ne_some, ne_eq, unescape?_eq_some_iff, List.mem_map,
    Prod.exists, exists_and_right, exists_eq_right, not_exists]

/-- The second text is one way to write the first one between quotes. -/
inductive Spelling (quote : Char) : List Char → List Char → Prop where
  | nil : Spelling quote [] []
  | raw {c : Char} {content written : List Char} (hquote : c ≠ quote) (hescape : c ≠ '\\')
      (h : Spelling quote content written) : Spelling quote (c :: content) (c :: written)
  | escaped {letter c : Char} {content written : List Char} (hletter : (letter, c) ∈ escapes)
      (h : Spelling quote content written) :
      Spelling quote (c :: content) ('\\' :: letter :: written)

/-- Neither a character nor an escape can be read off the front of the text. -/
inductive Halts (quote : Char) : List Char → Prop where
  | closed (rest : List Char) : Halts quote (quote :: rest)
  | invalid {letter : Char} (rest : List Char) (h : letter ∉ escapes.map Prod.fst) :
      Halts quote ('\\' :: letter :: rest)
  | missing : Halts quote []
  | cut : Halts quote ['\\']

/-- The text is a spelling up to a closing quote. -/
def ClosesString (quote : Char) (text : List Char) : Prop :=
  ∃ content written rest, Spelling quote content written ∧ text = written ++ quote :: rest

/-- The text is a spelling up to an escape that does not exist. -/
def MisspellsString (quote : Char) (text : List Char) : Prop :=
  ∃ content written letter rest, Spelling quote content written ∧
    letter ∉ escapes.map Prod.fst ∧ text = written ++ '\\' :: letter :: rest

variable {quote : Char} {content written rest text : List Char}

theorem ne_backslash (hquote : quote = '"' ∨ quote = '\x27') : quote ≠ '\\' := by
  rcases hquote with rfl | rfl <;> decide

theorem Spelling.exists_written (hquote : quote = '"' ∨ quote = '\x27') (content : List Char) :
    ∃ written, Spelling quote content written := by
  induction content with
  | nil => exact ⟨[], .nil⟩
  | cons c content ih =>
      obtain ⟨written, h⟩ := ih
      by_cases hescape : c = '\\'
      · subst hescape
        exact ⟨_, .escaped (show ('\\', '\\') ∈ escapes by decide) h⟩
      · by_cases hc : c = quote
        · subst hc
          have hletter : (c, c) ∈ escapes := by rcases hquote with rfl | rfl <;> decide
          exact ⟨_, .escaped hletter h⟩
        · exact ⟨_, .raw hc hescape h⟩

/-- Every text is a spelling up to the place where it halts. -/
theorem Spelling.exists_halts (quote : Char) (text : List Char) :
    ∃ content written rest, Spelling quote content written ∧ text = written ++ rest ∧
      Halts quote rest := by
  induction text using Scan.quoted.induct quote with
  | case1 => exact ⟨[], [], [], .nil, rfl, .missing⟩
  | case2 rest => exact ⟨[], [], _, .nil, rfl, .closed rest⟩
  | case3 hquote => exact ⟨[], [], _, .nil, rfl, .cut⟩
  | case4 letter rest hnone hquote =>
      exact ⟨[], [], _, .nil, rfl, .invalid rest (unescape?_eq_none_iff.1 hnone)⟩
  | case5 letter rest c hc result length hrest hquote ih =>
      obtain ⟨content, written, tail, h, rfl, hhalts⟩ := ih
      exact ⟨_, _, tail, .escaped (unescape?_eq_some_iff.1 hc) h, rfl, hhalts⟩
  | case6 c rest hquote hescape result length hrest ih =>
      obtain ⟨content, written, tail, h, rfl, hhalts⟩ := ih
      exact ⟨_, _, tail, .raw hquote hescape h, rfl, hhalts⟩

namespace Scan

/-- What is read behind a spelling is read after its content. -/
theorem quoted_append (hquote : quote ≠ '\\') (h : Spelling quote content written)
    (rest : List Char) : quoted quote (written ++ rest) =
      ((quoted quote rest).1.map (content ++ ·), written.length + (quoted quote rest).2) := by
  generalize hrest : quoted quote rest = r
  obtain ⟨result, length⟩ := r
  induction h with
  | nil =>
      rw [List.nil_append, hrest]
      cases result <;> simp [Except.map]
  | raw hc hescape h ih =>
      rw [List.cons_append, quoted_plain hc hescape, ih]
      cases result <;> simp [Except.map] <;> omega
  | escaped hletter h ih =>
      rw [List.cons_append, List.cons_append,
        quoted_escape (Ne.symm hquote) (unescape?_eq_some_iff.2 hletter), ih]
      cases result <;> simp [Except.map] <;> omega

theorem quoted_invalid {letter : Char} (hquote : quote ≠ '\\')
    (hletter : letter ∉ escapes.map Prod.fst) (rest : List Char) :
    quoted quote ('\\' :: letter :: rest) = (.error (.invalidEscape letter), 1) := by
  rw [quoted.eq_def]
  simp only [if_neg (Ne.symm hquote), if_true, unescape?_eq_none_iff.2 hletter]

theorem quoted_cut (hquote : quote ≠ '\\') : quoted quote ['\\'] = (.error .unterminated, 1) := by
  rw [quoted.eq_def]
  simp only [if_neg (Ne.symm hquote), if_true]

end Scan

namespace Lexer

/-- What reading comes to behind an opening quote, from what is quoted. -/
def ofQuoted (opening : Position) (stop : Cursor) :
    Except Fault (List Char) → EStateM.Result LexError Cursor Token
  | .ok content => .ok (.literal (.string (String.ofList content))) stop
  | .error .unterminated => .error ⟨.unterminated, opening⟩ stop
  | .error fault => .error ⟨fault, stop.place⟩ stop

section

variable (hquote : quote = '"' ∨ quote = '\x27') (h : Spelling quote content written)

include hquote h

/-- Behind an opening quote and a spelling, what is read of the rest decides. -/
theorem next_of_spelling (place : Position) {front : List Char} {result : Except Fault (List Char)}
    (hread : Scan.quoted quote (front ++ rest) = (result, front.length)) :
    next ⟨quote :: written ++ (front ++ rest), place⟩ =
      ofQuoted place ⟨rest, place.after (quote :: written ++ front)⟩
        (result.map (content ++ ·)) := by
  have hskip (text : List Char) :
      Cursor.skipBlanks ⟨quote :: text, place⟩ = ⟨quote :: text, place⟩ := by
    rcases hquote with rfl | rfl <;> rfl
  have hscan (text : List Char) : Scan.ofText (quote :: text) = Scan.string quote text := by
    rcases hquote with rfl | rfl <;> rfl
  have hlength : written.length + front.length + 1 = (quote :: written ++ front).length := by simp
  simp only [List.cons_append, next, hskip, hscan, Scan.string,
    Scan.quoted_append (ne_backslash hquote) h, hread, Cursor.advance_eq, hlength]
  rw [← List.cons_append, ← List.cons_append, ← List.append_assoc, List.drop_left, List.take_left]
  cases result with
  | ok content => rfl
  | error fault => cases fault <;> rfl

theorem next_of_closed (rest : List Char) (place : Position) :
    next ⟨quote :: written ++ quote :: rest, place⟩ =
      .ok (.literal (.string (String.ofList content)))
        ⟨rest, place.after (quote :: written ++ [quote])⟩ := by
  have hread : Scan.quoted quote ([quote] ++ rest) = (.ok [], [quote].length) := Scan.quoted_quote
  have hnext := next_of_spelling hquote h place hread
  rwa [Except.map, List.append_nil] at hnext

theorem next_of_invalid {letter : Char} (hletter : letter ∉ escapes.map Prod.fst)
    (rest : List Char) (place : Position) :
    next ⟨quote :: written ++ '\\' :: letter :: rest, place⟩ =
      .error ⟨.invalidEscape letter, place.after (quote :: written ++ ['\\'])⟩
        ⟨letter :: rest, place.after (quote :: written ++ ['\\'])⟩ := by
  have hread : Scan.quoted quote (['\\'] ++ letter :: rest) =
      (.error (.invalidEscape letter), ['\\'].length) :=
    Scan.quoted_invalid (ne_backslash hquote) hletter rest
  exact next_of_spelling hquote h place hread

theorem next_of_unclosed (hrest : rest = [] ∨ rest = ['\\']) (place : Position) :
    next ⟨quote :: written ++ rest, place⟩ =
      .error ⟨.unterminated, place⟩ ⟨[], place.after (quote :: written ++ rest)⟩ := by
  have hread : Scan.quoted quote (rest ++ []) = (.error .unterminated, rest.length) := by
    rcases hrest with rfl | rfl
    · rfl
    · exact Scan.quoted_cut (ne_backslash hquote)
  have hnext := next_of_spelling hquote h place hread
  rwa [List.append_nil] at hnext

end

/-- A string is read from each of its spellings between quotes. Behind an opening
quote that no spelling closes, reading stops at the first escape that does not exist, or
else at the end of the text. -/
theorem next_string_literal (hquote : quote = '"' ∨ quote = '\x27') :
    (∀ s : String, ∃ written, Spelling quote s.toList written) ∧
    (∀ (s : String) (written rest : List Char) (place : Position),
      Spelling quote s.toList written →
        next ⟨quote :: written ++ quote :: rest, place⟩ =
          .ok (.literal (.string s)) ⟨rest, place.after (quote :: written ++ [quote])⟩) ∧
    ∀ (text : List Char) (place : Position), ¬ ClosesString quote text →
      (∀ content written letter rest, Spelling quote content written →
        letter ∉ escapes.map Prod.fst → text = written ++ '\\' :: letter :: rest →
          next ⟨quote :: text, place⟩ =
            .error ⟨.invalidEscape letter, place.after (quote :: written ++ ['\\'])⟩
              ⟨letter :: rest, place.after (quote :: written ++ ['\\'])⟩) ∧
      (¬ MisspellsString quote text →
        next ⟨quote :: text, place⟩ =
          .error ⟨.unterminated, place⟩ ⟨[], place.after (quote :: text)⟩) := by
  refine ⟨fun s => Spelling.exists_written hquote s.toList, ?_, ?_⟩
  · intro s written rest place h
    have hnext := next_of_closed hquote h rest place
    rwa [String.ofList_toList] at hnext
  · intro text place hopen
    constructor
    · rintro content written letter rest h hletter rfl
      exact next_of_invalid hquote h hletter rest place
    · intro hspelled
      obtain ⟨content, written, rest, h, rfl, hhalts⟩ := Spelling.exists_halts quote text
      cases hhalts with
      | closed rest => exact (hopen ⟨content, written, rest, h, rfl⟩).elim
      | @invalid letter rest hletter =>
          exact (hspelled ⟨content, written, letter, rest, h, hletter, rfl⟩).elim
      | missing => exact next_of_unclosed hquote h (.inl rfl) place
      | cut => exact next_of_unclosed hquote h (.inr rfl) place

/-- Escapes, a quote of the other kind and a line feed, written with single quotes. -/
def mixedSpelling : List Char := "a\\n\\\x27\"\n\\\\".toList

theorem spelling_mixedSpelling : Spelling '\x27' "a\n\x27\"\n\\".toList mixedSpelling := by
  have hlineFeed : ('n', '\n') ∈ escapes := by decide
  have hquote : ('\x27', '\x27') ∈ escapes := by decide
  have hbackslash : ('\\', '\\') ∈ escapes := by decide
  refine .raw (by decide) (by decide) (.escaped hlineFeed (.escaped hquote ?_))
  exact .raw (by decide) (by decide) (.raw (by decide) (by decide) (.escaped hbackslash .nil))

/-- Only a quote that stands for itself closes a string. -/
theorem escapedQuote_open : ¬ ClosesString '"' ['\\', '"'] ∧ ¬ MisspellsString '"' ['\\', '"'] := by
  constructor
  · rintro ⟨content, written, rest, h, htext⟩
    cases h with
    | nil => cases htext
    | raw hquote hescape h => exact hescape (List.cons.inj htext).1.symm
    | escaped hletter h => simp at htext
  · rintro ⟨content, written, letter, rest, h, hletter, htext⟩
    cases h with
    | nil =>
        cases htext
        exact hletter (by decide)
    | raw hquote hescape h => exact hescape (List.cons.inj htext).1.symm
    | escaped hletter h => simp at htext

theorem unknownEscape_open : ¬ ClosesString '"' ['\\', 'q', '"'] := by
  rintro ⟨content, written, rest, h, htext⟩
  cases h with
  | nil => cases htext
  | raw hquote hescape h => exact hescape (List.cons.inj htext).1.symm
  | escaped hletter h =>
      obtain rfl := (List.cons.inj (List.cons.inj htext).2).1
      simp [escapes] at hletter

theorem mixedSpelling_read :
    (Spelling '\x27' "a\n\x27\"\n\\".toList mixedSpelling ∧
      next ⟨'\x27' :: mixedSpelling ++ '\x27' :: "\x27]".toList, .start⟩ =
        .ok (.literal (.string "a\n\x27\"\n\\")) ⟨"\x27]".toList, ⟨2, 4, 11⟩⟩) ∧
    (¬ ClosesString '"' ['\\', 'q', '"'] ∧
      next ⟨['"', '\\', 'q', '"'], .start⟩ =
        .error ⟨.invalidEscape 'q', ⟨1, 3, 2⟩⟩ ⟨['q', '"'], ⟨1, 3, 2⟩⟩) ∧
    ¬ ClosesString '"' ['\\', '"'] ∧ ¬ MisspellsString '"' ['\\', '"'] ∧
      next ⟨['"', '\\', '"'], .start⟩ = .error ⟨.unterminated, .start⟩ ⟨[], ⟨1, 4, 3⟩⟩ := by
  have hdouble := next_string_literal (.inl rfl)
  refine ⟨⟨spelling_mixedSpelling, ?_⟩, ⟨unknownEscape_open, ?_⟩, escapedQuote_open.1,
    escapedQuote_open.2, ?_⟩
  · exact (next_string_literal (.inr rfl)).2.1 _ _ _ _ spelling_mixedSpelling
  · exact (hdouble.2.2 _ _ unknownEscape_open).1 [] [] 'q' ['"'] .nil (by decide) rfl
  · exact (hdouble.2.2 _ _ escapedQuote_open.1).2 escapedQuote_open.2

end Lexer

end QueryNotation
