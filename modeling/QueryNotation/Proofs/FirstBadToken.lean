import QueryNotation.Proofs.Completion
import QueryNotation.Proofs.CursorPlaces
import QueryNotation.Proofs.RelatedRuns
import QueryNotation.Proofs.TreeSpelling

/-!
# The first bad token

An unexpected token is the first one with which the text cannot go on: the
text before it can be completed to a query, and the text up to its end
fails in the same way whatever is written behind a blank after it.
-/

namespace QueryNotation

open Text

/-! ## Writing a completion -/

theorem exists_slice_of_closer {u : Token} (h : u ∈ closers) :
    ∃ slice, Spells Delimits slice [u] := by
  have hsymbol {s : Symbol} (hs : ¬ s.IsWordOperator) (hequals : ¬ s.TakesEquals) :
      ∃ slice, Spells Delimits slice [.symbol s] := ⟨_, spells_bracket Delimits hs hequals⟩
  simp only [closers, List.mem_cons, List.not_mem_nil, or_false] at h
  rcases h with rfl | rfl | rfl | rfl | rfl
  · exact ⟨"a".toList, spells_word (isWord_of_all "a" (by decide +kernel))⟩
  all_goals exact hsymbol (by simp [Symbol.IsWordOperator]) (by simp [Symbol.TakesEquals])

/-- Completions are written with a blank before each token. -/
theorem exists_closing {us : List Token} (h : us ⊆ closers) :
    ∃ text, Spells Delimits text us ∧ (text = [] ∨ text.head? = some ' ') := by
  induction us with
  | nil => exact ⟨[], .nil Delimits, .inl rfl⟩
  | cons u us ih =>
      rw [List.cons_subset] at h
      obtain ⟨slice, hslice⟩ := exists_slice_of_closer h.1
      obtain ⟨text, htext, hblank⟩ := ih h.2
      refine ⟨' ' :: (slice ++ text), spells_blank ?_, .inr rfl⟩
      refine hslice.append htext fun rest hrest => ?_
      rcases hblank with rfl | hhead
      · exact hrest
      · obtain ⟨tail, rfl⟩ := List.head?_eq_some_iff.1 hhead
        exact delimits_cons (by decide +kernel)

theorem stops_of_closing {text : List Char} (h : text = [] ∨ text.head? = some ' ') :
    Stops text := by
  rcases h with rfl | hhead
  · exact stops_nil
  · obtain ⟨tail, rfl⟩ := List.head?_eq_some_iff.1 hhead
    exact stops_of_isBlank rfl

namespace Reader

/-! ## Runs over texts with a common front -/

/-- Two runs over texts that have their pieces in common. The first one is
followed until it reads more than these. -/
def upTo (old new : List Char) : Comparison where
  states s₁ s₂ := s₁.token = s₂.token ∧ s₁.start = s₂.start ∧ s₁.depth = s₂.depth ∧
    ∃ ps place, Pieces ps old ∧ Pieces ps new ∧ s₁.cursor = ⟨ps.flatMap Piece.chars ++ old, place⟩ ∧
      s₂.cursor = ⟨ps.flatMap Piece.chars ++ new, place⟩
  places := Eq
  faults := Eq
  beyond s := s.cursor.ahead.length < old.length ∨ (s.cursor.ahead = [] ∧ s.token = .endOfText)
  excused := fun _ => True

variable {old new : List Char} {s s₁ s₂ s' : ReaderState}

theorem left_advance (h : s.cursor.ahead.length ≤ old.length) :
    (upTo old new).Left (advance s) := by
  cases hadvance : advance s with
  | ok _ s₁ =>
      have hle := remaining_le_of_advance hadvance
      obtain ⟨hnext, -⟩ := advance_eq_ok hadvance
      by_cases hend : s₁.token = .endOfText
      · rw [hend] at hnext
        exact .inr ⟨Lexer.ahead_eq_nil_of_next hnext, hend⟩
      · rw [ReaderState.remaining, if_neg hend] at hle
        exact .inl (by omega)
  | error e s₁ =>
      simp only [advance] at hadvance
      split at hadvance
      next => cases hadvance
      next fault cursor hnext =>
        cases hadvance
        exact .inr ⟨fault, rfl, trivial⟩

theorem length_le_of_beyond (h : (upTo old new).beyond s) : s.cursor.ahead.length ≤ old.length := by
  rcases h with hlt | ⟨hnil, -⟩
  · exact Nat.le_of_lt hlt
  · simp [hnil]

theorem upTo_advance (h : (upTo old new).states s₁ s₂) :
    (upTo old new).Results (advance s₁) (advance s₂) := by
  obtain ⟨htoken, hstart, hdepth, ps, place, hold, hnew, h₁, h₂⟩ := h
  cases ps with
  | nil =>
      refine .left (left_advance ?_)
      rw [h₁]
      exact Nat.le_refl _
  | cons p ps =>
      cases hold with
      | cons hp hold =>
          cases hnew with
          | cons hp' hnew =>
              rw [List.flatMap_cons, List.append_assoc] at h₁ h₂
              have hnext₁ := hp.next place
              have hnext₂ := hp'.next place
              rw [← h₁] at hnext₁
              rw [← h₂] at hnext₂
              rw [advance_of_next hnext₁, advance_of_next hnext₂]
              refine .ok () ⟨rfl, ?_, hdepth, ps, _, hold, hnew, rfl, rfl⟩
              rw [h₁, h₂]
              dsimp only
              rw [hp.skipBlanks, hp'.skipBlanks]

theorem upTo_isLawful (old new : List Char) : (upTo old new).IsLawful where
  token_eq h := h.1
  depth_eq h := h.2.2.1
  start h := h.2.1
  atDepth h n := ⟨h.1, h.2.1, rfl, h.2.2.2⟩
  beyond_atDepth h n := h
  advance := ⟨upTo_advance, fun h => left_advance (length_le_of_beyond h)⟩
  take := by
    constructor
    · intro s₁ s₂ h
      have hstates : (upTo old new).states { s₁ with token := .endOfText }
          { s₂ with token := .endOfText } := ⟨rfl, h.2⟩
      exact upTo_advance hstates
    · intro s h
      exact left_advance (s := { s with token := .endOfText }) (length_le_of_beyond (s := s) h)

theorem start_of_pieces {p : Piece} {ps : List Piece} {rest : List Char}
    (h : Pieces (p :: ps) rest) :
    start ((p :: ps).flatMap Piece.chars ++ rest) =
      .ok ⟨⟨ps.flatMap Piece.chars ++ rest, Position.start.after p.chars⟩, p.token,
        Position.start.after p.blanks, 0⟩ := by
  cases h with
  | cons hp hps =>
      rw [List.flatMap_cons, List.append_assoc]
      simp only [start, Cursor.ofText, hp.next, hp.skipBlanks]

theorem start_upTo {ps : List Piece} (hne : ps ≠ []) (hold : Pieces ps old) (hnew : Pieces ps new) :
    ∃ s₁ s₂, start (ps.flatMap Piece.chars ++ old) = .ok s₁ ∧
      start (ps.flatMap Piece.chars ++ new) = .ok s₂ ∧ (upTo old new).states s₁ s₂ := by
  obtain ⟨p, ps, rfl⟩ := List.exists_cons_of_ne_nil hne
  refine ⟨_, _, start_of_pieces hold, start_of_pieces hnew, rfl, rfl, rfl, ps, _, ?_, ?_, rfl, rfl⟩
  · cases hold with
    | cons hp hps => exact hps
  · cases hnew with
    | cons hp hps => exact hps

end Reader

open Reader

variable {text : String} {expected : Expectation} {found : Token} {place : Position}

theorem Query.parse_eq_unexpected (h : parse text = .error (.unexpected expected found place)) :
    ∃ s s', start text.toList = .ok s ∧
      query s = .error (.unexpected expected found place) s' := by
  unfold parse at h
  split at h
  next => cases h
  next s hstart =>
    split at h
    next => cases h
    next e s' hquery =>
      cases h
      exact ⟨s, s', hstart, hquery⟩

/-- A text up to a token, and from there on. -/
theorem take_drop_skipBlanks {front : List Char} {stop : Cursor}
    (hplace : stop.place = Position.start.after front) :
    (front ++ stop.ahead).take stop.skipBlanks.place.offset =
        front ++ stop.ahead.takeWhile isBlank ∧
      (front ++ stop.ahead).drop stop.skipBlanks.place.offset = stop.skipBlanks.ahead := by
  have hsplit : front ++ stop.ahead =
      (front ++ stop.ahead.takeWhile isBlank) ++ stop.skipBlanks.ahead := by
    rw [Cursor.ahead_skipBlanks, List.append_assoc, List.takeWhile_append_dropWhile]
  have hoffset : stop.skipBlanks.place.offset = (front ++ stop.ahead.takeWhile isBlank).length := by
    rw [Cursor.place_skipBlanks, hplace, ← Position.after_append, Position.offset_after]
    exact Nat.zero_add _
  rw [hsplit, hoffset]
  exact ⟨List.take_left, List.drop_left⟩

/-- What a run leaves behind that stops at an unexpected token: pieces that it has
passed and that can be completed, and a cursor in front of the token. -/
theorem Query.exists_pieces_of_unexpected
    (h : parse text = .error (.unexpected expected found place)) :
    ∃ s s' ps stop, start text.toList = .ok s ∧
      query s = .error (.unexpected expected found place) s' ∧
      (Pieces ps stop.ahead ∧ text.toList = ps.flatMap Piece.chars ++ stop.ahead ∧
        stop.place = Position.start.after (ps.flatMap Piece.chars)) ∧
      (Lexer.next stop = .ok found s'.cursor ∧ found = s'.token ∧ place = stop.skipBlanks.place) ∧
      ∃ n us q, us ⊆ closers ∧ DerivesQuery n (ps.map (·.token) ++ us) q ∧ n ≤ maxDepth := by
  obtain ⟨s, s', hstart, hquery⟩ := parse_eq_unexpected h
  obtain ⟨n, ts, us, q, hstuck, hderives, hn⟩ := query_stuck hquery
  have hts : .endOfText ∉ ts :=
    fun hmem => hderives.endOfText_notMem (List.mem_append_left us hmem)
  obtain ⟨ps, stop, hps, htext, hplace, rfl, hnext, hstop⟩ :=
    hstuck.passes.exists_pieces hts (start_eq_ok hstart).1 (start_place hstart)
  refine ⟨s, s', ps, stop, hstart, hquery, ⟨hps, htext, hplace⟩, ⟨?_, hstuck.found_eq, ?_⟩,
    n, us, q, hstuck.closes, hderives, by omega⟩
  · rw [hstuck.found_eq]
    exact hnext
  · rw [hstuck.place_eq]
    exact hstop

/-- The text in front of an unexpected token can be completed to a query. -/
theorem Query.exists_parse_take (h : parse text = .error (.unexpected expected found place)) :
    ∃ s q, parse (String.ofList (text.toList.take place.offset) ++ s) = .ok q := by
  obtain ⟨s, s', ps, stop, -, -, ⟨hps, htext, hplace⟩, ⟨-, -, rfl⟩, n, us, q, hus, hderives, hn⟩ :=
    exists_pieces_of_unexpected h
  have hblanks : ∀ c ∈ stop.ahead.takeWhile isBlank, isBlank c = true :=
    List.all_eq_true.1 List.all_takeWhile
  obtain ⟨closing, hclosing, hblank⟩ := exists_closing hus
  refine ⟨String.ofList closing, q, (parse_of_derives ?_ hderives).1 hn⟩
  have hend (place : Position) : Lexes ⟨closing, place⟩ us := by
    simpa using hclosing delimits_nil (Lexes.nil (place.after closing))
  have hstops := stops_append_of_blanks hblanks (stops_of_closing hblank)
  rw [htext, (take_drop_skipBlanks hplace).1, hasTokens_iff_lexes, String.toList_append,
    String.toList_ofList, String.toList_ofList, List.append_assoc]
  exact (hps.replace hstops).lexes (Lexes.blanks hblanks (hend _))

/-- Behind an unexpected token and a blank, no text is of any help. -/
theorem Query.parse_take_of_unexpected
    (h : parse text = .error (.unexpected expected found place)) (hfound : found ≠ .endOfText) :
    ∃ stop, Lexer.next ⟨text.toList.drop place.offset, place⟩ = .ok found stop ∧
      ∀ w s, isBlank w = true →
        parse (String.ofList (text.toList.take stop.place.offset ++ w :: s)) =
          .error (.unexpected expected found place) := by
  obtain ⟨s, s', ps, stop, hstart, hquery, ⟨hps, htext, hplace⟩, ⟨hnext, htoken, rfl⟩, -⟩ :=
    exists_pieces_of_unexpected h
  obtain ⟨p, rfl, hp, hstop⟩ := Lexer.exists_piece hnext hfound
  -- The token is one more piece, and the text behind it has not been looked at.
  have hall : Pieces (ps ++ [p]) s'.cursor.ahead := by
    refine Pieces.append ?_ (.cons hp (.nil _))
    rw [hstop] at hps
    simpa using hps
  have hat := hp.next stop.place
  rw [← hstop, hnext] at hat
  have hcursor : s'.cursor = ⟨s'.cursor.ahead, stop.place.after p.chars⟩ :=
    (EStateM.Result.ok.inj hat).2
  refine ⟨s'.cursor, ?_, fun w rest hw => ?_⟩
  · rw [htext, (take_drop_skipBlanks hplace).2]
    exact (Lexer.next_skipBlanks stop).trans hnext
  have hfront : text.toList = (ps ++ [p]).flatMap Piece.chars ++ s'.cursor.ahead := by
    rw [htext, hstop]
    simp
  have htake : text.toList.take s'.cursor.place.offset = (ps ++ [p]).flatMap Piece.chars := by
    have hoffset : s'.cursor.place.offset = ((ps ++ [p]).flatMap Piece.chars).length := by
      rw [hcursor]
      dsimp only
      rw [hplace, ← Position.after_append, Position.offset_after]
      simp [Position.start]
    rw [hoffset, hfront, List.take_left]
  have hrelated : Pieces (ps ++ [p]) (w :: rest) := hall.replace (stops_of_isBlank hw)
  obtain ⟨s₁, s₂, hstart₁, hstart₂, hstates⟩ := start_upTo (by simp) hall hrelated
  rw [hfront, hstart₁] at hstart
  cases hstart
  have hresults := (Comparison.Compares.query (upTo_isLawful _ _)).states hstates
  rw [hquery] at hresults
  rw [htake, parse, String.toList_ofList, hstart₂]
  dsimp only
  generalize query s₂ = r at hresults
  cases hresults with
  | error he hs =>
      cases he with
      | unexpected expected found hplaces => cases hplaces; rfl
  | left hleft =>
      rcases hleft with (hlt | ⟨-, hend⟩) | ⟨fault, hfault, -⟩
      · exact (Nat.lt_irrefl _ hlt).elim
      · exact (hfound (htoken.trans hend)).elim
      · cases hfault

/-- The first token with which a text cannot go on to be a query is the one that
is reported, at the place where it starts. -/
theorem Query.first_bad_token (h : parse text = .error (.unexpected expected found place)) :
    (∃ s q, parse (String.ofList (text.toList.take place.offset) ++ s) = .ok q) ∧
      (found ≠ .endOfText → ∃ stop,
        Lexer.next ⟨text.toList.drop place.offset, place⟩ = .ok found stop ∧
          ∀ w s, isBlank w = true →
            parse (String.ofList (text.toList.take stop.place.offset ++ w :: s)) =
              .error (.unexpected expected found place)) :=
  ⟨exists_parse_take h, parse_take_of_unexpected h⟩

theorem Query.openClause_fails : parse "t[where(a,b]" =
    .error (.unexpected (.token (.symbol .comma)) (.symbol .closeBracket) ⟨1, 12, 11⟩) := by
  have hparse : (match parse "t[where(a,b]" with
      | .error (.unexpected expected found place) => decide (expected = .token (.symbol .comma) ∧
          found = .symbol .closeBracket ∧ place = ⟨1, 12, 11⟩)
      | _ => false) = true := by decide +kernel
  split at hparse
  next expected found place h =>
    obtain ⟨rfl, rfl, rfl⟩ := of_decide_eq_true hparse
    exact h
  next => cases hparse

/-- Two arguments make no clause, but `t[where(a,b` is still the front of a query. -/
theorem Query.openClause_first_bad_token :
    (∃ s q, parse (String.ofList ("t[where(a,b]".toList.take 11) ++ s) = .ok q) ∧
      ∃ stop, Lexer.next ⟨"t[where(a,b]".toList.drop 11, ⟨1, 12, 11⟩⟩ =
          .ok (.symbol .closeBracket) stop ∧ ∀ w s, isBlank w = true →
            parse (String.ofList ("t[where(a,b]".toList.take stop.place.offset ++ w :: s)) =
              .error (.unexpected (.token (.symbol .comma)) (.symbol .closeBracket) ⟨1, 12, 11⟩) :=
  ⟨(first_bad_token openClause_fails).1, (first_bad_token openClause_fails).2 (by decide)⟩

end QueryNotation
