import QueryNotation.Proofs.LexingPlaces

/-!
# Slices of a text

A text that is read to its end consists of blanks and of one slice for each
token. A slice ends where its token cannot go on. So it is read as the same
token when it stands alone, and the blanks around it may be exchanged for
others, as long as there are some between two slices.
-/

namespace QueryNotation

open Text

def Value.IsNumber : Value → Prop
  | integer _ | float _ | decimal _ => True
  | string _ | boolean _ => False

theorem Value.isNumber_ofNumeral (whole fraction : List Char) :
    (ofNumeral whole fraction).IsNumber := by
  unfold ofNumeral
  dsimp only
  split
  next => trivial
  next =>
    split
    next => trivial
    next => split <;> trivial

namespace Token

/-- Names, and the words that have a meaning of their own. -/
def IsWordlike : Token → Prop
  | word _ | symbol .and | symbol .or | literal (.boolean _) => True
  | _ => False

/-- The token does not go on into the text behind it. -/
structure EndsBefore (t : Token) (rest : List Char) : Prop where
  wordlike : t.IsWordlike → ∀ c, rest.head? = some c → continuesWord c = false
  number : ∀ v, t = literal v → v.IsNumber → ∀ c, rest.head? = some c → c.isDigit = false ∧ c ≠ '.'
  symbol : ∀ s, t = symbol s → s.TakesEquals → NoEquals rest

end Token

theorem Scan.Takes.endsBefore {t : Token} {slice rest : List Char} (h : Takes t slice rest)
    (hpoint : rest.head? ≠ some '.') : t.EndsBefore rest := by
  cases h with
  | @symbol s _ hs hrest =>
      refine ⟨?_, fun v hv => Token.noConfusion hv, ?_⟩
      · intro hword
        cases s <;> first | exact hword.elim | exact (hs (by simp [Symbol.IsWordOperator])).elim
      · rintro s' ⟨⟩ hequals
        exact hrest hequals
  | string hquote hbody =>
      refine ⟨False.elim, ?_, fun s hs => Token.noConfusion hs⟩
      rintro v ⟨⟩ hnumber
      exact hnumber.elim
  | word hname hrest =>
      refine ⟨fun _ => hrest, ?_, ?_⟩
      · intro v hv hnumber
        unfold Token.ofWord at hv
        split at hv <;> cases hv <;> exact hnumber.elim
      · intro s hs hequals
        unfold Token.ofWord at hs
        split at hs <;> cases hs <;> simp [Symbol.TakesEquals] at hequals
  | @numeral whole digits _ hne hwhole hdigits hrest _ =>
      refine ⟨?_, ?_, fun s hs => Token.noConfusion hs⟩
      · intro hword
        have hnumber := Value.isNumber_ofNumeral whole digits
        generalize Value.ofNumeral whole digits = v at hword hnumber
        cases v with
        | boolean b => exact hnumber.elim
        | _ => exact hword.elim
      · rintro v - - c hc
        refine ⟨hrest c hc, ?_⟩
        rintro rfl
        exact hpoint hc

namespace Pieces

variable {p : Piece} {ps front back : List Piece} {rest last : List Char}

theorem head?_ne_point (h : Pieces ps rest) (hrest : rest.head? ≠ some '.') :
    (ps.flatMap Piece.chars ++ rest).head? ≠ some '.' := by
  cases h with
  | nil => exact hrest
  | cons hp hs =>
      obtain ⟨c, text, hchars, hc⟩ := hp.exists_cons
      rw [List.flatMap_cons, hchars]
      exact fun hhead => hc (Option.some.inj hhead)

/-- Pieces with nothing but blanks behind them are read to the end. -/
theorem lexes_blanks (h : Pieces ps last) (hlast : ∀ c ∈ last, isBlank c = true)
    (place : Position) : Lexes ⟨ps.flatMap Piece.chars ++ last, place⟩ (ps.map (·.token)) := by
  have hend (place : Position) : Lexes ⟨last, place⟩ [] := by
    have hblanks := Lexes.blanks hlast (Lexes.nil (place.after last))
    rwa [List.append_nil] at hblanks
  have hlexes := h.lexes (hend (place.after (ps.flatMap Piece.chars)))
  rwa [List.append_nil] at hlexes

theorem hasTokens (h : Pieces ps last) (hlast : ∀ c ∈ last, isBlank c = true) :
    HasTokens (String.ofList (ps.flatMap Piece.chars ++ last)) (ps.map (·.token)) := by
  rw [hasTokens_iff_lexes, String.toList_ofList]
  exact h.lexes_blanks hlast .start

theorem precedes (h : Pieces (front ++ p :: back) rest) :
    p.Precedes (back.flatMap Piece.chars ++ rest) ∧ Pieces back rest := by
  induction front with
  | nil =>
      cases h with
      | cons hp hs => exact ⟨hp, hs⟩
  | cons q front ih =>
      cases h with
      | cons hq hs => exact ih hs

/-- A token is found under the number of slices before it, and has the place
where its slice starts. -/
theorem getElem?_tokens (h : Pieces (front ++ p :: back) rest) (place : Position) :
    (Lexing.ofCursor ⟨(front ++ p :: back).flatMap Piece.chars ++ rest, place⟩).tokens[front.length]? =
      some (p.token, place.after (front.flatMap Piece.chars ++ p.blanks)) := by
  induction front generalizing place with
  | nil =>
      cases h with
      | cons hp hs =>
          rw [List.nil_append, List.flatMap_cons, List.append_assoc,
            Lexing.ofCursor_of_ne (hp.next place) hp.token_ne, hp.skipBlanks]
          rfl
  | cons q front ih =>
      cases h with
      | cons hq hs =>
          have hnext := Lexing.ofCursor_of_ne (hq.next place) hq.token_ne
          have hrest := ih hs (place.after q.chars)
          rw [← Position.after_append, ← List.append_assoc] at hrest
          rw [List.cons_append, List.flatMap_cons, List.append_assoc, List.flatMap_cons]
          exact (congrArg (fun l => l.tokens[(q :: front).length]?) hnext).trans hrest

/-- The slices may be read behind other blanks. Only the first slice needs none. -/
theorem respaced {gaps : List (List Char)} (h : Pieces ps rest) (hlength : gaps.length = ps.length)
    (hgaps : ∀ gap ∈ gaps, ∀ c ∈ gap, isBlank c = true) (htail : ∀ gap ∈ gaps.tail, gap ≠ [])
    (hlast : ∀ c ∈ last, isBlank c = true) :
    Pieces (gaps.zipWith (fun gap p => { p with blanks := gap }) ps) last := by
  induction h generalizing gaps with
  | nil =>
      rw [List.zipWith_nil_right]
      exact .nil last
  | @cons p ps rest hp hs ih =>
      obtain ⟨gap, gaps, rfl⟩ := List.exists_cons_of_length_eq_add_one hlength
      obtain ⟨hgap, hgaps⟩ := List.forall_mem_cons.1 hgaps
      rw [List.length_cons, List.length_cons, Nat.add_right_cancel_iff] at hlength
      have hrespaced := ih hlength hgaps fun gap hmem => htail gap (List.mem_of_mem_tail hmem)
      refine .cons ⟨hgap, hp.takes.relieve ?_⟩ hrespaced
      -- Behind the slice stands a blank, or the end with blanks before it.
      refine Stops.relieves ?_ _
      cases ps with
      | nil =>
          rw [List.zipWith_nil_right]
          exact stops_of_blanks hlast
      | cons q ps =>
          obtain ⟨next, gaps, rfl⟩ := List.exists_cons_of_length_eq_add_one hlength
          obtain ⟨c, blanks, rfl⟩ := List.exists_cons_of_ne_nil (htail next (by simp))
          have hblank := hgaps (c :: blanks) (by simp)
          exact stops_of_isBlank (hblank c (by simp))

end Pieces

/-! ## Reading a text slice by slice -/

theorem Piece.chars_respaced (gaps : List (List Char)) (ps : List Piece) :
    (gaps.zipWith (fun gap p => { p with blanks := gap }) ps).flatMap Piece.chars =
      (gaps.zipWith (· ++ ·) (ps.map (·.slice))).flatten := by
  rw [List.flatMap_def, List.map_zipWith, List.zipWith_map_right]
  rfl

theorem Piece.tokens_respaced {gaps : List (List Char)} {ps : List Piece}
    (h : gaps.length = ps.length) :
    (gaps.zipWith (fun gap p => { p with blanks := gap }) ps).map (·.token) =
      ps.map (·.token) := by
  induction ps generalizing gaps with
  | nil => simp
  | cons p ps ih =>
      obtain ⟨gap, gaps, rfl⟩ := List.exists_cons_of_length_eq_add_one h
      rw [List.length_cons, List.length_cons, Nat.add_right_cancel_iff] at h
      rw [List.zipWith_cons_cons, List.map_cons, List.map_cons, ih h]

/-- A slice of a text, behind the pieces in `front` and in front of the text
`after`. -/
structure Piece.Stands (text : String) (front : List Piece) (p : Piece) (after : List Char) :
    Prop where
  blanks : ∀ c ∈ p.blanks, isBlank c = true
  slice_ne_nil : p.slice ≠ []
  /-- The token is found under its number, with the place where the slice starts. -/
  place : (Lexing.ofText text).tokens[front.length]? =
    some (p.token, Position.start.after (front.flatMap Piece.chars ++ p.blanks))
  alone : HasTokens (String.ofList p.slice) [p.token]
  endsBefore : p.token.EndsBefore after

theorem Pieces.stands {text : String} {front back : List Piece} {p : Piece} {last : List Char}
    (h : Pieces (front ++ p :: back) last)
    (htext : text.toList = (front ++ p :: back).flatMap Piece.chars ++ last)
    (hlast : ∀ c ∈ last, isBlank c = true) :
    p.Stands text front (back.flatMap Piece.chars ++ last) := by
  obtain ⟨hp, hback⟩ := h.precedes
  have hpoint : last.head? ≠ some '.' := by
    intro hhead
    have hblank := hlast '.' (List.mem_of_head? hhead)
    exact absurd hblank (by decide)
  have halone : Pieces [⟨[], p.slice, p.token⟩] [] :=
    .cons ⟨by simp, hp.takes.relieve nofun⟩ (.nil [])
  obtain ⟨c, slice, hslice, -⟩ := hp.takes.exists_cons
  refine ⟨hp.blanks, ?_, ?_, ?_, hp.takes.endsBefore (hback.head?_ne_point hpoint)⟩
  · rw [hslice]
    exact List.cons_ne_nil c slice
  · rw [Lexing.ofText, htext]
    exact h.getElem?_tokens .start
  · have htokens : HasTokens (String.ofList ([⟨[], p.slice, p.token⟩].flatMap Piece.chars ++ []))
        [p.token] := halone.hasTokens (by simp)
    simpa [Piece.chars] using htokens

/-- A text falls into the pieces and the blanks at its end. -/
structure SlicedInto (text : String) (ts : List Token) (ps : List Piece) (last : List Char) :
    Prop where
  text_eq : text.toList = ps.flatMap Piece.chars ++ last
  isBlank_last : ∀ c ∈ last, isBlank c = true
  tokens : ps.map (·.token) = ts
  stands : ∀ front p back, ps = front ++ p :: back →
    p.Stands text front (back.flatMap Piece.chars ++ last)
  /-- With any blanks between them the slices are read as the same tokens. -/
  respaced : ∀ (gaps : List (List Char)) (blanks : List Char), gaps.length = ps.length →
    (∀ gap ∈ gaps, ∀ c ∈ gap, isBlank c = true) → (∀ gap ∈ gaps.tail, gap ≠ []) →
    (∀ c ∈ blanks, isBlank c = true) →
    HasTokens (String.ofList ((gaps.zipWith (· ++ ·) (ps.map (·.slice))).flatten ++ blanks)) ts

theorem Pieces.slicedInto {text : String} {ps : List Piece} {last : List Char}
    (h : Pieces ps last) (htext : text.toList = ps.flatMap Piece.chars ++ last)
    (hlast : ∀ c ∈ last, isBlank c = true) : SlicedInto text (ps.map (·.token)) ps last where
  text_eq := htext
  isBlank_last := hlast
  tokens := rfl
  stands := by
    rintro front p back rfl
    exact h.stands htext hlast
  respaced := by
    intro gaps blanks hlength hgaps htail hblanks
    have htokens := (h.respaced hlength hgaps htail hblanks).hasTokens hblanks
    rwa [Piece.chars_respaced, Piece.tokens_respaced hlength] at htokens

theorem Lexer.exists_hasTokens {text : String} {tokens : List Token} {stop : Cursor}
    (h : all (.ofText text.toList) = .ok tokens stop) :
    ∃ ts, tokens = ts ++ [.endOfText] ∧ HasTokens text ts := by
  have hread := h
  unfold all at hread
  dsimp only at hread
  split at hread
  next hfailure =>
    obtain ⟨htokens, -⟩ := EStateM.Result.ok.inj hread
    obtain ⟨place, hlast⟩ := Lexing.getLast?_ofCursor hfailure
    obtain ⟨before, hbefore⟩ := List.getLast?_eq_some_iff.1 hlast
    rw [hbefore, List.map_append, List.map_singleton] at htokens
    exact ⟨before.map (·.1), htokens.symm, stop, htokens ▸ h⟩
  next => cases hread

/-- Nothing but blanks is lost when a text is read, and every token is read as
far as it goes. -/
theorem Lexer.exists_slices {text : String} {tokens : List Token} {stop : Cursor}
    (h : all (.ofText text.toList) = .ok tokens stop) :
    ∃ ts ps last, tokens = ts ++ [.endOfText] ∧ SlicedInto text ts ps last := by
  obtain ⟨ts, htokens, hts⟩ := exists_hasTokens h
  obtain ⟨ps, last, hps, htext, rfl, hlast⟩ := (hasTokens_iff_lexes.1 hts).exists_pieces
  exact ⟨_, ps, last, htokens, hps.slicedInto htext hlast⟩

/-- Words, numerals and symbols that stand side by side, and a string. -/
def comparisonText : String := " a<1.50\n and'x'!= -!b "

def comparisonTokens : List Token :=
  [.word "a", .symbol .less, .literal (.ofNumeral ['1'] ['5', '0']), .symbol .and,
    .literal (.string "x"), .symbol .notEqual, .symbol .minus, .symbol .exclamation, .word "b"]

theorem comparisonText_slices :
    ∃ stop, Lexer.all (.ofText comparisonText.toList) = .ok (comparisonTokens ++ [.endOfText]) stop ∧
      ∃ ts ps last, comparisonTokens ++ [.endOfText] = ts ++ [.endOfText] ∧
        SlicedInto comparisonText ts ps last := by
  have htokens : HasTokens comparisonText comparisonTokens :=
    hasTokens_iff_lexes.2 (lexes_of_atMost (n := 25) (by decide +kernel) (by decide +kernel))
  obtain ⟨stop, hstop⟩ := htokens
  exact ⟨stop, hstop, Lexer.exists_slices hstop⟩

end QueryNotation
