import Mathlib.Data.List.DropRight
import QueryNotation.Command.Render
import QueryNotation.Proofs.JsonStrings
import QueryNotation.Proofs.QueryAcceptance
import QueryNotation.Proofs.StringSpellings
import QueryNotation.Proofs.TokenSlices

/-!
# Trimmed texts

No token ends in a blank, because a string ends in its closing quote. So
the blanks at the end of a text stand behind its last token if the text can
be read at all, and the blanks at its front are skipped before the first
one. A query is the same with and without them, and this is the query that
the command shows.
-/

namespace QueryNotation

open Text

/-! ## The ends of slices -/

/-- What is read as a string ends in the closing quote. -/
theorem Scan.exists_closing {quote : Char} {body content : List Char} (hquote : quote ≠ '\\')
    (h : quoted quote body = (.ok content, body.length)) : ∃ written, body = written ++ [quote] := by
  obtain ⟨inner, written, rest, hwritten, rfl, hhalts⟩ := Spelling.exists_halts quote body
  rw [quoted_append hquote hwritten] at h
  cases hhalts with
  | closed rest =>
      rw [quoted_quote] at h
      have hlength := congrArg Prod.snd h
      have hrest : rest = [] := by simpa using hlength
      exact ⟨written, by rw [hrest]⟩
  | invalid rest hletter =>
      rw [quoted_invalid hquote hletter] at h
      cases h
  | missing => cases h
  | cut =>
      rw [quoted_cut hquote] at h
      cases h

theorem Scan.Takes.isBlank_getLast {t : Token} {slice rest : List Char} (h : Takes t slice rest) :
    ∀ c, slice.getLast? = some c → isBlank c = false := by
  intro c hc
  cases h with
  | @symbol s _ hs hrest => cases s <;> cases hc <;> decide
  | @string quote body content _ hquote hbody =>
      obtain ⟨written, rfl⟩ := exists_closing (ne_backslash hquote) (by simpa using hbody [])
      rw [← List.cons_append, List.getLast?_concat] at hc
      cases hc
      rcases hquote with rfl | rfl <;> decide
  | word hname hrest =>
      exact isBlank_eq_false_of_continuesWord (hname.2 c (List.mem_of_getLast? hc))
  | @numeral whole digits _ hne hwhole hdigits hrest hpoint =>
      have hmem : c ∈ whole ∨ c = '.' ∨ c ∈ digits := by
        have hc := List.mem_of_getLast? hc
        unfold numeralText at hc
        split at hc <;> simp_all
      rcases hmem with hmem | rfl | hmem
      · exact isBlank_eq_false_of_continuesWord (continuesWord_of_isDigit (hwhole c hmem))
      · decide
      · exact isBlank_eq_false_of_continuesWord (continuesWord_of_isDigit (hdigits c hmem))

namespace Pieces

variable {ps : List Piece} {last core trail : List Char}

theorem isBlank_getLast (h : Pieces ps last) :
    ∀ c, (ps.flatMap Piece.chars).getLast? = some c → isBlank c = false := by
  induction h with
  | nil => exact nofun
  | @cons p ps _ hp hs ih =>
      intro c hc
      obtain ⟨d, text, hslice, -⟩ := hp.takes.exists_cons
      have hlast : ∀ b, (p.blanks ++ p.slice).getLast? = some b → isBlank b = false := by
        intro b hb
        rw [List.getLast?_append_of_ne_nil _ (hslice ▸ List.cons_ne_nil d text)] at hb
        exact hp.takes.isBlank_getLast b hb
      rw [List.flatMap_cons, Piece.chars, List.getLast?_append, Option.or_eq_some_iff] at hc
      rcases hc with hc | ⟨-, hc⟩
      · exact ih c hc
      · exact hlast c hc

/-- Blanks at the end of a text belong to no piece. -/
theorem exists_last (h : Pieces ps last) (hlast : ∀ c ∈ last, isBlank c = true)
    (htrail : ∀ c ∈ trail, isBlank c = true)
    (htext : core ++ trail = ps.flatMap Piece.chars ++ last) :
    ∃ before, core = ps.flatMap Piece.chars ++ before ∧ ∀ c ∈ before, isBlank c = true := by
  rcases List.append_eq_append_iff.1 htext with ⟨cut, hcut, rfl⟩ | ⟨before, rfl, rfl⟩
  · cases hend : cut.getLast? with
    | none =>
        rw [List.getLast?_eq_none_iff.1 hend, List.append_nil] at hcut
        exact ⟨[], by rw [hcut, List.append_nil], nofun⟩
    | some c =>
        have hblank := htrail c (List.mem_append_left _ (List.mem_of_getLast? hend))
        have hnot := h.isBlank_getLast c (by rw [hcut, List.getLast?_append, hend, Option.some_or])
        rw [hblank] at hnot
        cases hnot
  · exact ⟨before, rfl, fun c hc => hlast c (List.mem_append_left _ hc)⟩

end Pieces

/-! ## Blanks around a text -/

/-- A text has the same tokens with and without blanks around it. -/
theorem hasTokens_blanks_iff {lead trail text : List Char} {ts : List Token}
    (hlead : ∀ c ∈ lead, isBlank c = true) (htrail : ∀ c ∈ trail, isBlank c = true) :
    HasTokens (String.ofList (lead ++ (text ++ trail))) ts ↔ HasTokens (String.ofList text) ts := by
  rw [hasTokens_iff_lexes, hasTokens_iff_lexes, String.toList_ofList, String.toList_ofList]
  have hnext := Lexer.next_blanks hlead (text ++ trail) .start
  constructor
  · intro h
    obtain ⟨ps, last, hps, hsplit, rfl, hlast⟩ := (h.of_next_eq hnext.symm).exists_pieces
    obtain ⟨before, rfl, hbefore⟩ := hps.exists_last hlast htrail hsplit
    exact (hps.replace (stops_of_blanks hbefore)).lexes_blanks hbefore .start
  · intro h
    obtain ⟨ps, last, hps, hsplit, rfl, hlast⟩ := h.exists_pieces
    have hblanks : ∀ c ∈ last ++ trail, isBlank c = true :=
      List.forall_mem_append.2 ⟨hlast, htrail⟩
    have htext : text ++ trail = ps.flatMap Piece.chars ++ (last ++ trail) := by
      rw [← List.append_assoc, ← hsplit]
      rfl
    refine Lexes.of_next_eq hnext ?_
    rw [htext]
    exact (hps.replace (stops_of_blanks hblanks)).lexes_blanks hblanks _

theorem exists_trimBlanks (text : List Char) : ∃ lead trail,
    text = lead ++ (trimBlanks text ++ trail) ∧ (∀ c ∈ lead, isBlank c = true) ∧
      ∀ c ∈ trail, isBlank c = true := by
  refine ⟨text.takeWhile isBlank, (text.dropWhile isBlank).rtakeWhile isBlank, ?_,
    List.all_eq_true.1 List.all_takeWhile, fun c hc => List.mem_rtakeWhile_imp hc⟩
  have htrim : trimBlanks text = (text.dropWhile isBlank).rdropWhile isBlank := rfl
  rw [htrim, List.rdropWhile_append_rtakeWhile, List.takeWhile_append_dropWhile]

theorem trimBlanks_eq_nil_iff {text : List Char} :
    trimBlanks text = [] ↔ ∀ c ∈ text, isBlank c = true := by
  constructor
  · intro h
    obtain ⟨lead, trail, htext, hlead, htrail⟩ := exists_trimBlanks text
    rw [htext, h, List.nil_append]
    exact List.forall_mem_append.2 ⟨hlead, htrail⟩
  · intro h
    rw [trimBlanks, List.dropWhile_eq_nil_iff.2 h]
    rfl

theorem isEmpty_trimBlanks {text : List Char} (h : ∃ c ∈ text, isBlank c = false) :
    (trimBlanks text).isEmpty = false := by
  rw [List.isEmpty_eq_false_iff, ne_eq, trimBlanks_eq_nil_iff]
  intro hall
  obtain ⟨c, hmem, hc⟩ := h
  rw [hall c hmem] at hc
  cases hc

theorem hasTokens_trimBlanks_iff {text : String} {ts : List Token} :
    HasTokens (String.ofList (trimBlanks text.toList)) ts ↔ HasTokens text ts := by
  obtain ⟨lead, trail, htext, hlead, htrail⟩ := exists_trimBlanks text.toList
  rw [← hasTokens_blanks_iff hlead htrail, ← htext, String.ofList_toList]

theorem Query.parse_eq_ok_iff {text : String} {q : Query} : parse text = .ok q ↔
    ∃ ts n, HasTokens text ts ∧ DerivesQuery n ts q ∧ n ≤ maxDepth := by
  constructor
  · exact parse_eq_ok
  · rintro ⟨ts, n, htext, hderives, hn⟩
    exact (parse_of_derives htext hderives).1 hn

/-- A query is the same with and without blanks around it. -/
theorem Query.parse_trimBlanks_iff {text : String} {q : Query} :
    parse (String.ofList (trimBlanks text.toList)) = .ok q ↔ parse text = .ok q := by
  simp only [parse_eq_ok_iff, hasTokens_trimBlanks_iff]

/-! ## What the command shows -/

@[simp] theorem Query.text_classified (q : Query) (language : Language) :
    q.classified.text language = q.text language := by
  cases language <;> rfl

namespace Command

/-- The languages of a style, in the order in which the texts are shown. -/
def Style.languages : Style → List Language
  | compact => [.compact]
  | relational => [.relational]
  | both => [.compact, .relational]

theorem Style.text_eq (style : Style) (q : Query) :
    style.text q = "\n".intercalate (style.languages.map q.text) := by
  cases style <;> rfl

theorem Style.text_classified (style : Style) (q : Query) :
    style.text q.classified = style.text q := by
  cases style <;> simp only [Style.text, Query.text_classified]

theorem describeQuery_classified (q : Query) : describeQuery q.classified = describeQuery q := by
  simp only [describeQuery, Query.text_classified]
  rfl

/-- Everything that is shown belongs to the query: its texts, one below the
other, or an object with its texts and its table. -/
structure Rendering.Shows (request : RenderRequest) (q : Query) (r : Rendering) : Prop where
  text : request.json = false →
    r = .text ("\n".intercalate (request.style.languages.map q.text))
  object : request.json = true → ∃ members, r = .object members ∧
    members.lookup "dql" = some (q.text .compact) ∧
    members.lookup "sql" = some (q.text .relational) ∧ members.lookup "table" = some q.table
  output : ∀ pretty, if request.json then
      Json.strings (r.output pretty) =
        ["dql", q.text .compact, "sql", q.text .relational, "table", q.table]
    else r.output pretty = "\n".intercalate (request.style.languages.map q.text)

variable {request : RenderRequest} {text : String} {q : Query}

theorem render_of_none (h : request.query = none) : render request = .error .noQuery := by
  rw [render, h]
  rfl

theorem render_of_blank (h : request.query = some text)
    (htext : ∀ c ∈ text.toList, isBlank c = true) : render request = .error .noQuery := by
  simp only [render, h, trimBlanks_eq_nil_iff.2 htext]
  rfl

theorem render_of_not_parse (h : request.query = some text)
    (htext : ∃ c ∈ text.toList, isBlank c = false) (hparse : ¬ ∃ q, Query.parse text = .ok q) :
    ∃ e, render request = .error (.unreadable e) := by
  cases htrimmed : Query.parse (String.ofList (trimBlanks text.toList)) with
  | error e =>
      refine ⟨e, ?_⟩
      simp only [render, h, isEmpty_trimBlanks htext, htrimmed]
      rfl
  | ok q => exact (hparse ⟨q, Query.parse_trimBlanks_iff.1 htrimmed⟩).elim

theorem render_of_parse (h : request.query = some text)
    (htext : ∃ c ∈ text.toList, isBlank c = false) (hparse : Query.parse text = .ok q) :
    render request =
      .ok (if request.json then .object (describeQuery q) else .text (request.style.text q)) := by
  have htrimmed := Query.parse_trimBlanks_iff.2 hparse
  simp only [render, h, isEmpty_trimBlanks htext, htrimmed, describeQuery_classified,
    Style.text_classified]
  cases request.json <;> rfl

namespace Rendering

theorem shows_object (hjson : request.json = true) :
    (object (describeQuery q)).Shows request q where
  text h := by
    rw [hjson] at h
    cases h
  object _ := ⟨describeQuery q, rfl, rfl, rfl, rfl⟩
  output pretty := by
    rw [if_pos hjson]
    exact Json.strings_object (describeQuery q) pretty

theorem shows_text (hjson : request.json = false) :
    (Rendering.text (request.style.text q)).Shows request q where
  text _ := congrArg Rendering.text (Style.text_eq _ _)
  object h := by
    rw [hjson] at h
    cases h
  output pretty := by
    rw [hjson, if_neg Bool.false_ne_true]
    exact Style.text_eq _ _

end Rendering

theorem exists_render_iff (h : request.query = some text)
    (htext : ∃ c ∈ text.toList, isBlank c = false) :
    (∃ r, render request = .ok r) ↔ ∃ q, Query.parse text = .ok q := by
  constructor
  · rintro ⟨r, hr⟩
    by_contra hparse
    obtain ⟨e, he⟩ := render_of_not_parse h htext hparse
    rw [he] at hr
    cases hr
  · rintro ⟨q, hparse⟩
    exact ⟨_, render_of_parse h htext hparse⟩

theorem shows_of_render {r : Rendering} (h : request.query = some text)
    (htext : ∃ c ∈ text.toList, isBlank c = false) (hr : render request = .ok r)
    (hparse : Query.parse text = .ok q) : r.Shows request q := by
  rw [render_of_parse h htext hparse, Except.ok.injEq] at hr
  subst hr
  cases hjson : request.json with
  | true => exact Rendering.shows_object hjson
  | false => exact Rendering.shows_text hjson

theorem render_eq_noQuery_iff : render request = .error .noQuery ↔
    ∀ text, request.query = some text → ∀ c ∈ text.toList, isBlank c = true := by
  constructor
  · intro hrender text h
    by_contra hblank
    have htext : ∃ c ∈ text.toList, isBlank c = false := by simpa using hblank
    by_cases hparse : ∃ q, Query.parse text = .ok q
    · obtain ⟨q, hparse⟩ := hparse
      rw [render_of_parse h htext hparse] at hrender
      cases hrender
    · obtain ⟨e, he⟩ := render_of_not_parse h htext hparse
      rw [he] at hrender
      cases hrender
  · intro hblank
    cases h : request.query with
    | none => exact render_of_none h
    | some text => exact render_of_blank h (hblank text h)

/-- Unless it is blank, a text is accepted by the command exactly if it is a query with
all its blanks, and this query is shown. Nothing but a blank text, or none, is taken for
a missing query. -/
theorem render_iff_parse (request : RenderRequest) :
    (∀ text, request.query = some text → (∃ c ∈ text.toList, isBlank c = false) →
      ((∃ r, render request = .ok r) ↔ ∃ q, Query.parse text = .ok q) ∧
      ∀ r q, render request = .ok r → Query.parse text = .ok q → r.Shows request q) ∧
    (render request = .error .noQuery ↔
      ∀ text, request.query = some text → ∀ c ∈ text.toList, isBlank c = true) := by
  refine ⟨fun text h htext => ⟨exists_render_iff h htext, fun r q => ?_⟩, render_eq_noQuery_iff⟩
  exact shows_of_render h htext

/-- A query between blanks, with blanks in its string as well. -/
def spacedText : String := "\u3000sales[ ' a ']\n\t"

theorem parse_spacedText : Query.parse spacedText =
    .ok ((Query.new "sales").appendAll [.constant (.string " a ")]) := by
  have htext : HasTokens spacedText [.word "sales", .symbol .openBracket,
      .literal (.string " a "), .symbol .closeBracket] :=
    hasTokens_iff_lexes.2 (lexes_of_atMost (n := 8) (by decide +kernel) (by decide +kernel))
  have hliteral := (Derives.literal (.string " a ")).mono (Nat.zero_le BinaryOperator.loosest)
  have hitem := DerivesItem.expression hliteral (by simp) (by simp) (.other id)
  exact (Query.parse_of_derives htext (.mk "sales" (.last (.item hitem)))).1 (by decide)

/-- Only the blanks around the query are lost. -/
theorem spacedText_shown :
    (∃ c ∈ spacedText.toList, isBlank c = false) ∧
    ∃ r, render { query := some spacedText, json := true } = .ok r ∧ ∀ pretty,
      Json.strings (r.output pretty) = ["dql", "sales[ a ]", "sql", "SELECT  a  FROM \"sales\"",
        "table", "sales"] := by
  have htext : ∃ c ∈ spacedText.toList, isBlank c = false := ⟨'s', by decide, by decide⟩
  obtain ⟨haccepts, hshows⟩ :=
    (render_iff_parse { query := some spacedText, json := true }).1 spacedText rfl htext
  obtain ⟨r, hr⟩ := haccepts.2 ⟨_, parse_spacedText⟩
  refine ⟨htext, r, hr, fun pretty => ?_⟩
  exact (hshows r _ hr parse_spacedText).output pretty

end Command

end QueryNotation
