import QueryNotation.Proofs.Spelling

/-!
# Texts in pieces

A text that is read token by token falls into pieces: blanks and the
characters of a token. What a token is read from depends on the text
behind it through the first character of that text only, so that a run of
pieces may be put in front of another text.
-/

namespace QueryNotation

open Text

/-- No token goes on into the text. -/
structure Stops (rest : List Char) : Prop where
  delimits : Delimits rest
  noEquals : NoEquals rest

theorem stops_nil : Stops [] := by
  constructor
  · intro c hc
    cases hc
  · exact nofun

theorem stops_cons {c : Char} {rest : List Char} (hword : continuesWord c = false)
    (hpoint : c ≠ '.') (hequal : c ≠ '=') : Stops (c :: rest) := by
  constructor
  · intro d hd
    cases hd
    exact ⟨hword, hpoint⟩
  · exact fun h => hequal (Option.some.inj h)

theorem stops_of_isBlank {c : Char} {rest : List Char} (h : isBlank c = true) :
    Stops (c :: rest) := by
  apply stops_cons (continuesWord_eq_false_of_isBlank h)
  · rintro rfl
    exact absurd h (by decide)
  · rintro rfl
    exact absurd h (by decide)

theorem stops_append_of_blanks {blanks rest : List Char} (h : ∀ c ∈ blanks, isBlank c = true)
    (hrest : Stops rest) : Stops (blanks ++ rest) := by
  cases blanks with
  | nil => exact hrest
  | cons c blanks => exact stops_of_isBlank (h c (by simp))

theorem stops_of_blanks {blanks : List Char} (h : ∀ c ∈ blanks, isBlank c = true) :
    Stops blanks := by
  have hstops := stops_append_of_blanks h stops_nil
  rwa [List.append_nil] at hstops

/-- The second text begins like the first one, or with a character with
which no token goes on. -/
def Relieves (old new : List Char) : Prop :=
  ∀ c, new.head? = some c → c ≠ '.' ∧ (old.head? = some c ∨ (continuesWord c = false ∧ c ≠ '='))

theorem Stops.relieves {new : List Char} (h : Stops new) (old : List Char) : Relieves old new := by
  intro c hc
  refine ⟨(h.delimits c hc).2, .inr ⟨(h.delimits c hc).1, ?_⟩⟩
  rintro rfl
  exact h.noEquals hc

/-! ## What a token is read from -/

/-- The token is read from the first text, in front of the second. -/
inductive Scan.Takes : Token → List Char → List Char → Prop where
  | symbol {s : Symbol} {rest : List Char} (hs : ¬ s.IsWordOperator)
      (hrest : s.TakesEquals → NoEquals rest) : Takes (.symbol s) s.text.toList rest
  | string {quote : Char} {body content rest : List Char} (hquote : quote = '"' ∨ quote = '\x27')
      (hbody : ∀ more, quoted quote (body ++ more) = (.ok content, body.length)) :
      Takes (.literal (.string (String.ofList content))) (quote :: body) rest
  | word {name : String} {rest : List Char} (hname : IsWord name)
      (hrest : ∀ c, rest.head? = some c → continuesWord c = false) :
      Takes (.ofWord name) name.toList rest
  | numeral {whole digits rest : List Char} (hne : whole ≠ [])
      (hwhole : ∀ c ∈ whole, c.isDigit = true) (hdigits : ∀ c ∈ digits, c.isDigit = true)
      (hrest : ∀ c, rest.head? = some c → c.isDigit = false)
      (hpoint : digits = [] → fraction rest = []) :
      Takes (.literal (.ofNumeral whole digits)) (numeralText whole digits) rest

namespace Scan

variable {c : Char} {t : Token} {n : Nat} {text rest slice old new : List Char}

theorem Takes.relieve (h : Takes t slice old) (hnew : Relieves old new) : Takes t slice new := by
  cases h with
  | symbol hs hrest =>
      refine .symbol hs fun hequals hhead => ?_
      rcases (hnew '=' hhead).2 with hold | ⟨-, hne⟩
      · exact hrest hequals hold
      · exact hne rfl
  | string hquote hbody => exact .string hquote hbody
  | word hname hrest =>
      refine .word hname fun c hc => ?_
      rcases (hnew c hc).2 with hold | ⟨hword, -⟩
      · exact hrest c hold
      · exact hword
  | numeral hne hwhole hdigits hrest hpoint =>
      refine .numeral hne hwhole hdigits (fun c hc => ?_) fun _ => ?_
      · rcases (hnew c hc).2 with hold | ⟨hword, -⟩
        · exact hrest c hold
        · rw [← Bool.not_eq_true]
          intro hdigit
          rw [continuesWord_of_isDigit hdigit] at hword
          cases hword
      · unfold fraction
        split
        next => exact ((hnew '.' rfl).1 rfl).elim
        next => rfl

/-- A token takes at least one character, and none that is blank. -/
theorem Takes.exists_cons (h : Takes t slice rest) :
    ∃ c text, slice = c :: text ∧ isBlank c = false ∧ c ≠ '.' := by
  cases h with
  | @symbol s hs hrest => cases s <;> exact ⟨_, _, rfl, by decide, by decide⟩
  | string hquote hbody => rcases hquote with rfl | rfl <;> exact ⟨_, _, rfl, by decide, by decide⟩
  | word hname hrest =>
      obtain ⟨⟨c, hhead, hstart⟩, -⟩ := hname
      obtain ⟨text, htext⟩ := List.head?_eq_some_iff.1 hhead
      have hblank := isBlank_eq_false_of_continuesWord (continuesWord_of_startsWord hstart)
      refine ⟨c, text, htext, hblank, ?_⟩
      rintro rfl
      exact absurd hstart (by decide)
  | numeral hne hwhole hdigits hrest hpoint =>
      obtain ⟨c, whole, rfl⟩ := List.exists_cons_of_ne_nil hne
      have hdigit := hwhole c (by simp)
      refine ⟨c, _, rfl, isBlank_eq_false_of_continuesWord (continuesWord_of_isDigit hdigit), ?_⟩
      rintro rfl
      exact absurd hdigit (by decide)

theorem ofText_of_takes (h : Takes t slice rest) :
    ofText (slice ++ rest) = ⟨.ok t, slice.length⟩ := by
  cases h with
  | symbol hs hrest => exact ofText_symbol hs hrest
  | @string quote body content _ hquote hbody =>
      have hscan : ofText (quote :: (body ++ rest)) = string quote (body ++ rest) := by
        rcases hquote with rfl | rfl <;> rfl
      rw [List.cons_append, hscan]
      simp only [Scan.string, hbody rest, Except.map, List.length_cons]
  | @word name _ hname hrest =>
      obtain ⟨⟨c, hhead, hstart⟩, hall⟩ := hname
      obtain ⟨text, htext⟩ := List.head?_eq_some_iff.1 hhead
      have htake : (name.toList ++ rest).takeWhile continuesWord = name.toList :=
        takeWhile_append_of_stop hall hrest
      rw [htext, List.cons_append, ofText_of_startsWord hstart, ← List.cons_append, ← htext]
      simp only [Scan.word, htake, String.ofList_toList]
  | @numeral whole digits _ hne hwhole hdigits hrest hpoint =>
      have hnumber := number_numeralText hwhole hdigits hrest hpoint
      obtain ⟨c, whole, rfl⟩ := List.exists_cons_of_ne_nil hne
      rw [← hnumber]
      exact ofText_of_isDigit (hwhole c (by simp))

theorem exists_symbol {s : Symbol} (h : symbol? c rest = some (s, n)) :
    ∃ tail, c :: rest = s.text.toList ++ tail ∧ s.text.toList.length = n ∧ ¬ s.IsWordOperator ∧
      (s.TakesEquals → NoEquals tail) := by
  unfold symbol? at h
  split at h
  next symbol tail hequals =>
    cases h
    unfold withEquals? at hequals
    split at hequals <;> cases hequals <;>
      exact ⟨tail, rfl, rfl, by simp [Symbol.IsWordOperator], by simp [Symbol.TakesEquals]⟩
  next rest _ _ hnone =>
    obtain ⟨symbol, halone, hpair⟩ := Option.map_eq_some_iff.1 h
    cases hpair
    have hnoEquals : (withEquals? c).isSome = true → NoEquals rest := by
      intro hequals hhead
      obtain ⟨symbol, hsymbol⟩ := Option.isSome_iff_exists.1 hequals
      obtain ⟨tail, rfl⟩ := List.head?_eq_some_iff.1 hhead
      exact hnone symbol tail hsymbol rfl
    unfold alone? at halone
    split at halone <;> cases halone <;>
      exact ⟨rest, rfl, rfl, by simp [Symbol.IsWordOperator],
        by first | exact fun _ => hnoEquals rfl | simp [Symbol.TakesEquals]⟩

section

variable {quote : Char}

theorem quoted_quote : quoted quote (quote :: rest) = (.ok [], 1) := by
  rw [quoted.eq_def]
  exact if_pos rfl

theorem quoted_escape {escaped d : Char} (hquote : '\\' ≠ quote) (hd : unescape? escaped = some d) :
    quoted quote ('\\' :: escaped :: rest) =
      ((quoted quote rest).1.map (d :: ·), (quoted quote rest).2 + 2) := by
  rw [quoted.eq_def]
  simp only [if_neg hquote, if_true, hd]

theorem quoted_plain (hquote : c ≠ quote) (hescape : c ≠ '\\') :
    quoted quote (c :: rest) = ((quoted quote rest).1.map (c :: ·), (quoted quote rest).2 + 1) := by
  rw [quoted.eq_def]
  simp only [if_neg hquote, if_neg hescape]

end

theorem exists_quoted {quote : Char} {content : List Char}
    (h : quoted quote rest = (.ok content, n)) :
    ∃ body tail, rest = body ++ tail ∧ body.length = n ∧
      ∀ more, quoted quote (body ++ more) = (.ok content, body.length) := by
  induction rest using quoted.induct quote generalizing content n with
  | case1 => simp [quoted] at h
  | case2 rest =>
      rw [quoted_quote] at h
      cases h
      exact ⟨[quote], rest, rfl, rfl, fun more => quoted_quote⟩
  | case3 hquote => simp [quoted, hquote] at h
  | case4 escaped rest hnone hquote => simp [quoted, hquote, hnone] at h
  | case5 escaped rest d hd result length hrest hquote ih =>
      rw [quoted_escape hquote hd, hrest] at h
      cases result with
      | error e => cases h
      | ok content =>
          cases h
          obtain ⟨body, tail, rfl, rfl, hbody⟩ := ih hrest
          refine ⟨'\\' :: escaped :: body, tail, rfl, rfl, fun more => ?_⟩
          rw [List.cons_append, List.cons_append, quoted_escape hquote hd, hbody more]
          rfl
  | case6 c rest hquote hescape result length hrest ih =>
      rw [quoted_plain hquote hescape, hrest] at h
      cases result with
      | error e => cases h
      | ok content =>
          cases h
          obtain ⟨body, tail, rfl, rfl, hbody⟩ := ih hrest
          refine ⟨c :: body, tail, rfl, rfl, fun more => ?_⟩
          rw [List.cons_append, quoted_plain hquote hescape, hbody more]
          rfl

theorem exists_number (hc : c.isDigit = true) (h : number (c :: text) = ⟨.ok t, n⟩) :
    ∃ slice tail, c :: text = slice ++ tail ∧ slice.length = n ∧ Takes t slice tail := by
  have hsplit := List.takeWhile_append_dropWhile (p := Char.isDigit) (l := c :: text)
  have hne : (c :: text).takeWhile Char.isDigit ≠ [] := by simp [hc]
  have hwhole : ∀ d ∈ (c :: text).takeWhile Char.isDigit, d.isDigit = true :=
    List.all_eq_true.1 List.all_takeWhile
  have hstop := dropWhile_stops (p := Char.isDigit) (c :: text)
  simp only [number, Scan.mk.injEq, Except.ok.injEq] at h
  obtain ⟨rfl, rfl⟩ := h
  generalize (c :: text).takeWhile Char.isDigit = whole at *
  generalize (c :: text).dropWhile Char.isDigit = tail at *
  cases hdigits : fraction tail with
  | nil =>
      refine ⟨numeralText whole [], tail, ?_, ?_,
        .numeral hne hwhole (by simp) hstop fun _ => hdigits⟩
      · rw [← hsplit]
        simp [numeralText]
      · simp [numeralText]
  | cons d digits =>
      unfold fraction at hdigits
      split at hdigits
      next rest =>
        have hall : ∀ e ∈ d :: digits, e.isDigit = true := by
          rw [← hdigits]
          exact List.all_eq_true.1 List.all_takeWhile
        refine ⟨numeralText whole (d :: digits), rest.dropWhile Char.isDigit, ?_, ?_,
          .numeral hne hwhole hall (dropWhile_stops rest)
            fun h => (List.cons_ne_nil d digits h).elim⟩
        · have hrest := List.takeWhile_append_dropWhile (p := Char.isDigit) (l := rest)
          rw [hdigits] at hrest
          rw [← hsplit, numeralText, if_neg (by simp), List.append_assoc, List.cons_append, hrest]
        · simp [numeralText]
      next => cases hdigits

/-- Whatever is scanned as a token has the form of the token. -/
theorem exists_takes (h : ofText (c :: text) = ⟨.ok t, n⟩) :
    ∃ slice tail, c :: text = slice ++ tail ∧ slice.length = n ∧ Takes t slice tail := by
  simp only [ofText] at h
  split at h
  next symbol length hsymbol =>
    cases h
    obtain ⟨tail, htext, hlength, hs, hrest⟩ := exists_symbol hsymbol
    exact ⟨_, tail, htext, hlength, .symbol hs hrest⟩
  next =>
    split at h
    next => cases h
    next =>
      split at h
      next hquote =>
        rcases hq : quoted c text with ⟨_ | content, length⟩ <;>
          simp only [string, hq, Except.map, Scan.mk.injEq, Except.ok.injEq] at h
        · cases h.1
        · obtain ⟨rfl, rfl⟩ := h
          obtain ⟨body, tail, rfl, rfl, hbody⟩ := exists_quoted hq
          exact ⟨c :: body, tail, rfl, rfl, .string (by simpa using hquote) hbody⟩
      next =>
        split at h
        next hstart =>
          simp only [word, Scan.mk.injEq, Except.ok.injEq] at h
          obtain ⟨rfl, rfl⟩ := h
          have hsplit := List.takeWhile_append_dropWhile (p := continuesWord) (l := c :: text)
          have hname : IsWord (String.ofList ((c :: text).takeWhile continuesWord)) :=
            isWord_takeWhile hstart
          have htakes := Takes.word hname (dropWhile_stops (c :: text))
          rw [String.toList_ofList] at htakes
          exact ⟨_, _, hsplit.symm, rfl, htakes⟩
        next =>
          split at h
          next hdigit => exact exists_number hdigit h
          next => cases h

end Scan

/-! ## Pieces of a text -/

/-- Blanks and the characters of a token after them. -/
structure Piece where
  blanks : List Char
  slice : List Char
  token : Token

namespace Piece

def chars (p : Piece) : List Char := p.blanks ++ p.slice

/-- The piece is read off the front of a text that goes on with `rest`. -/
structure Precedes (p : Piece) (rest : List Char) : Prop where
  blanks : ∀ c ∈ p.blanks, isBlank c = true
  takes : Scan.Takes p.token p.slice rest

variable {p : Piece} {old new rest : List Char}

theorem Precedes.relieve (h : p.Precedes old) (hnew : Relieves old new) : p.Precedes new :=
  ⟨h.blanks, h.takes.relieve hnew⟩

theorem Precedes.exists_cons (h : p.Precedes rest) : ∃ c text, p.chars = c :: text ∧ c ≠ '.' := by
  obtain ⟨c, text, hslice, -, hc⟩ := h.takes.exists_cons
  cases hblanks : p.blanks with
  | nil => exact ⟨c, text, by rw [chars, hblanks, hslice, List.nil_append], hc⟩
  | cons b blanks =>
      refine ⟨b, blanks ++ p.slice, by rw [chars, hblanks, List.cons_append], ?_⟩
      rintro rfl
      exact absurd (h.blanks '.' (by simp [hblanks])) (by decide)

theorem Precedes.token_ne (h : p.Precedes rest) : p.token ≠ .endOfText := by
  obtain ⟨c, text, hslice, -⟩ := h.takes.exists_cons
  have hscan := Scan.ofText_of_takes h.takes
  rw [hslice, List.cons_append] at hscan
  intro htoken
  exact Scan.ofText_ne_endOfText c (text ++ rest) (by rw [hscan, htoken])

theorem Precedes.skipBlanks (h : p.Precedes rest) (place : Position) :
    Cursor.skipBlanks ⟨p.chars ++ rest, place⟩ = ⟨p.slice ++ rest, place.after p.blanks⟩ := by
  obtain ⟨c, text, hslice, hblank, -⟩ := h.takes.exists_cons
  have htake : (p.blanks ++ (p.slice ++ rest)).takeWhile isBlank = p.blanks := by
    apply takeWhile_append_of_stop h.blanks
    intro d hd
    rw [hslice] at hd
    cases hd
    exact hblank
  rw [Cursor.skipBlanks, Cursor.advance_eq, chars, List.append_assoc, htake, List.drop_left,
    List.take_left]

theorem Precedes.next (h : p.Precedes rest) (place : Position) :
    Lexer.next ⟨p.chars ++ rest, place⟩ = .ok p.token ⟨rest, place.after p.chars⟩ := by
  simp only [Lexer.next, h.skipBlanks place]
  rw [Scan.ofText_of_takes h.takes]
  simp only [Cursor.advance_eq, List.drop_left, List.take_left, chars, Position.after_append]

end Piece

theorem Lexer.exists_piece {s stop : Cursor} {t : Token} (h : next s = .ok t stop)
    (ht : t ≠ .endOfText) : ∃ p : Piece, p.token = t ∧ p.Precedes stop.ahead ∧
      s = ⟨p.chars ++ stop.ahead, s.place⟩ := by
  have hsplit := List.takeWhile_append_dropWhile (p := isBlank) (l := s.ahead)
  rw [← Cursor.ahead_skipBlanks] at hsplit
  cases hahead : s.skipBlanks.ahead with
  | nil =>
      rw [next_of_ahead_eq_nil hahead] at h
      cases h
      exact (ht rfl).elim
  | cons c text =>
      simp only [next, hahead] at h
      split at h
      next u hscan =>
        cases h
        obtain ⟨slice, tail, hslice, hlength, htakes⟩ :=
          Scan.exists_takes (n := (Scan.ofText (c :: text)).length) (by rw [← hscan])
        have htail : (s.skipBlanks.advance (Scan.ofText (c :: text)).length).ahead = tail := by
          rw [Cursor.ahead_advance, hahead, ← hlength, hslice, List.drop_left]
        refine ⟨⟨s.ahead.takeWhile isBlank, slice, t⟩, rfl, ⟨?_, ?_⟩, ?_⟩
        · exact List.all_eq_true.1 List.all_takeWhile
        · rwa [htail]
        · rw [htail, Piece.chars, List.append_assoc, ← hslice, ← hahead, hsplit]
      next => cases h
      next => cases h

/-- The pieces are read one by one off a text that goes on with `rest`. -/
inductive Pieces : List Piece → List Char → Prop where
  | nil (rest : List Char) : Pieces [] rest
  | cons {p : Piece} {ps : List Piece} {rest : List Char}
      (h : p.Precedes (ps.flatMap Piece.chars ++ rest)) (hs : Pieces ps rest) :
      Pieces (p :: ps) rest

namespace Pieces

variable {p : Piece} {ps qs : List Piece} {old new rest : List Char}

theorem relieves (h : Pieces ps old) (hnew : Stops new) :
    Relieves (ps.flatMap Piece.chars ++ old) (ps.flatMap Piece.chars ++ new) := by
  cases h with
  | nil => exact hnew.relieves old
  | @cons p ps _ hp hs =>
      obtain ⟨c, text, hchars, hc⟩ := hp.exists_cons
      rw [List.flatMap_cons, hchars]
      intro d hd
      cases hd
      exact ⟨hc, .inl rfl⟩

/-- The same pieces can be read in front of any text that stops them. -/
theorem replace (h : Pieces ps old) (hnew : Stops new) : Pieces ps new := by
  induction h with
  | nil => exact .nil new
  | cons hp hs ih => exact .cons (hp.relieve (hs.relieves hnew)) ih

theorem append (h : Pieces ps (qs.flatMap Piece.chars ++ rest)) (hq : Pieces qs rest) :
    Pieces (ps ++ qs) rest := by
  generalize htext : qs.flatMap Piece.chars ++ rest = text at h
  induction h with
  | nil => exact hq
  | @cons p ps rest hp hs ih =>
      rw [List.cons_append]
      refine .cons ?_ (ih htext)
      rwa [List.flatMap_append, List.append_assoc, htext]

theorem lexes {place : Position} {us : List Token} (h : Pieces ps rest)
    (hrest : Lexes ⟨rest, place.after (ps.flatMap Piece.chars)⟩ us) :
    Lexes ⟨ps.flatMap Piece.chars ++ rest, place⟩ (ps.map (·.token) ++ us) := by
  induction h generalizing place with
  | nil => exact hrest
  | cons hp hs ih =>
      rw [List.flatMap_cons, Position.after_append] at hrest
      rw [List.flatMap_cons, List.append_assoc]
      exact .cons (hp.next place) hp.token_ne (ih hrest)

end Pieces

theorem Lexer.next_blanks {blanks : List Char} (h : ∀ c ∈ blanks, isBlank c = true)
    (rest : List Char) (place : Position) :
    next ⟨blanks ++ rest, place⟩ = next ⟨rest, place.after blanks⟩ := by
  induction blanks generalizing place with
  | nil => rfl
  | cons c blanks ih =>
      obtain ⟨hc, hblanks⟩ := List.forall_mem_cons.1 h
      exact (next_blank hc _ _).trans (ih hblanks _)

theorem Lexes.blanks {blanks rest : List Char} {place : Position} {us : List Token}
    (hblanks : ∀ c ∈ blanks, isBlank c = true) (h : Lexes ⟨rest, place.after blanks⟩ us) :
    Lexes ⟨blanks ++ rest, place⟩ us :=
  h.of_next_eq (Lexer.next_blanks hblanks rest place)

theorem ahead_eq_blanks_of_next {s stop : Cursor} (h : Lexer.next s = .ok .endOfText stop) :
    ∀ c ∈ s.ahead, isBlank c = true := by
  cases hahead : s.skipBlanks.ahead with
  | nil =>
      have hsplit := List.takeWhile_append_dropWhile (p := isBlank) (l := s.ahead)
      rw [← Cursor.ahead_skipBlanks, hahead, List.append_nil] at hsplit
      rw [← hsplit]
      exact List.all_eq_true.1 List.all_takeWhile
  | cons c rest =>
      simp only [Lexer.next, hahead] at h
      split at h
      next t ht =>
        cases h
        exact (Scan.ofText_ne_endOfText c rest ht).elim
      next => cases h
      next => cases h

/-- A text that is read to its end consists of pieces and blanks after them. -/
theorem Lexes.exists_pieces {s : Cursor} {ts : List Token} (h : Lexes s ts) :
    ∃ ps blanks, Pieces ps blanks ∧ s.ahead = ps.flatMap Piece.chars ++ blanks ∧
      ps.map (·.token) = ts ∧ ∀ c ∈ blanks, isBlank c = true := by
  induction h with
  | @done s stop h => exact ⟨[], s.ahead, .nil _, rfl, rfl, ahead_eq_blanks_of_next h⟩
  | cons h ht hs ih =>
      obtain ⟨ps, blanks, hps, hahead, rfl, hblanks⟩ := ih
      obtain ⟨p, rfl, hp, hs⟩ := Lexer.exists_piece h ht
      rw [hahead] at hp hs
      refine ⟨p :: ps, blanks, .cons hp hps, ?_, rfl, hblanks⟩
      rw [hs, List.flatMap_cons, List.append_assoc]

/-- What is read of a whole text is read of it in front of any text that stops
tokens. -/
theorem HasTokens.spells {text : String} {ts : List Token} (h : HasTokens text ts) :
    Spells Stops text.toList ts := by
  obtain ⟨ps, blanks, hps, htext, rfl, hblanks⟩ := (hasTokens_iff_lexes.1 h).exists_pieces
  intro rest place us hrest hus
  change text.toList = _ at htext
  rw [htext, Position.after_append] at hus
  rw [htext, List.append_assoc]
  have hstops := stops_append_of_blanks hblanks hrest
  exact (hps.replace hstops).lexes (Lexes.blanks hblanks hus)

namespace Reader

variable {s s' : ReaderState} {cursor : Cursor} {ts : List Token}

/-- The tokens that a reader has passed are pieces of the text, and the token
ahead is the one behind them. -/
theorem Passes.exists_pieces (h : Passes s ts s') (hts : .endOfText ∉ ts)
    (hnext : Lexer.next cursor = .ok s.token s.cursor)
    (hstart : s.start = cursor.skipBlanks.place) :
    ∃ ps stop, Pieces ps stop.ahead ∧ cursor.ahead = ps.flatMap Piece.chars ++ stop.ahead ∧
      stop.place = cursor.place.after (ps.flatMap Piece.chars) ∧ ps.map (·.token) = ts ∧
        Lexer.next stop = .ok s'.token s'.cursor ∧ s'.start = stop.skipBlanks.place := by
  induction h generalizing cursor with
  | nil s => exact ⟨[], cursor, .nil _, rfl, rfl, rfl, hnext, hstart⟩
  | @cons s s₁ s₂ ts hadvance hs ih =>
      rw [List.mem_cons, not_or] at hts
      obtain ⟨p, htoken, hp, hcursor⟩ := Lexer.exists_piece hnext (Ne.symm hts.1)
      obtain ⟨hnext₁, hstart₁, -⟩ := advance_eq_ok hadvance
      obtain ⟨ps, stop, hps, hahead, hplace, rfl, hstop⟩ := ih hts.2 hnext₁ hstart₁
      have hat := hp.next cursor.place
      rw [← hcursor, hnext] at hat
      rw [hahead] at hp hcursor
      refine ⟨p :: ps, stop, .cons hp hps, ?_, ?_, by rw [List.map_cons, htoken], hstop⟩
      · rw [hcursor, List.flatMap_cons, List.append_assoc]
      · have hplace₁ : s.cursor.place = cursor.place.after p.chars :=
          congrArg Cursor.place (EStateM.Result.ok.inj hat).2
        rw [hplace, hplace₁, List.flatMap_cons, Position.after_append]

end Reader

end QueryNotation
