import QueryNotation.Proofs.CursorPlaces
import QueryNotation.Proofs.RunContracts

/-!
# A reader as good as a new one

After calls that have returned, nothing of them is left in the state but
the token ahead. A new reader over the rest of the text from that token on
answers all further calls in the same way, with the places counted from
there.
-/

namespace QueryNotation

open Text

/-! ## Places in the rest of a text -/

/-- The place in a text of what is at `p` in the rest of the text from `origin` on. Lines
and columns are counted from one, and only the first line of the rest has characters
in front of it. -/
def Text.Position.shift (origin p : Position) : Position :=
  ⟨origin.line + (p.line - 1), if p.line = 1 then origin.column + (p.column - 1) else p.column,
    origin.offset + p.offset⟩

namespace Text.Position

variable (origin : Position)

theorem shift_start : origin.shift start = origin := rfl

theorem shift_next {p : Position} (c : Char) (hline : 1 ≤ p.line) (hcolumn : 1 ≤ p.column) :
    origin.shift (p.next c) = (origin.shift p).next c := by
  by_cases hc : c = '\n'
  · have hlater : p.line + 1 ≠ 1 := by omega
    simp only [next, if_pos hc, shift, if_neg hlater]
    congr 1
    omega
  · simp only [next, if_neg hc, shift]
    congr 1
    by_cases hfirst : p.line = 1
    · rw [if_pos hfirst, if_pos hfirst]
      omega
    · rw [if_neg hfirst, if_neg hfirst]

theorem shift_after {p : Position} (text : List Char) (hline : 1 ≤ p.line)
    (hcolumn : 1 ≤ p.column) : origin.shift (p.after text) = (origin.shift p).after text := by
  induction text generalizing p with
  | nil => rfl
  | cons c text ih =>
      rw [after_cons, after_cons, ← shift_next origin c hline hcolumn]
      unfold next
      split
      · exact ih (Nat.le_succ_of_le hline) (Nat.le_refl 1)
      · exact ih hline (Nat.le_succ_of_le hcolumn)

/-- On the first line of the rest the column moves, and on later lines it does not. -/
example : shift ⟨2, 4, 5⟩ ⟨1, 3, 2⟩ = ⟨2, 6, 7⟩ ∧ shift ⟨2, 4, 5⟩ ⟨3, 3, 8⟩ = ⟨4, 3, 13⟩ := by
  decide

end Text.Position

def LexError.shift (origin : Position) (e : LexError) : LexError :=
  { e with place := origin.shift e.place }

def ReadError.shift (origin : Position) : ReadError → ReadError
  | lexical e => lexical (e.shift origin)
  | unexpected expected found place => unexpected expected found (origin.shift place)
  | invalidDirection found place => invalidDirection found (origin.shift place)
  | clauseArity clause count place => clauseArity clause count (origin.shift place)
  | tooDeep place => tooDeep (origin.shift place)

/-! ## Reading the rest of a text -/

/-- The same place, counted from `origin` and counted from the front. -/
def Text.Position.Shifted (origin p₁ p₂ : Position) : Prop :=
  ∃ front, p₁ = origin.after front ∧ p₂ = start.after front

theorem Text.Position.Shifted.eq {origin p₁ p₂ : Position} (h : Shifted origin p₁ p₂) :
    p₁ = origin.shift p₂ := by
  obtain ⟨front, rfl, rfl⟩ := h
  rw [shift_after origin front (Nat.le_refl 1) (Nat.le_refl 1), shift_start]

theorem Text.Position.Shifted.after {origin p₁ p₂ : Position} (h : Shifted origin p₁ p₂)
    (passed : List Char) : Shifted origin (p₁.after passed) (p₂.after passed) := by
  obtain ⟨front, rfl, rfl⟩ := h
  exact ⟨front ++ passed, (after_append _ _ _).symm, (after_append _ _ _).symm⟩

/-- The second state is that of a reader over the rest of the text from `origin` on. -/
structure ReaderState.OverRest (origin : Position) (s₁ s₂ : ReaderState) : Prop where
  token : s₁.token = s₂.token
  depth : s₁.depth = s₂.depth
  start : origin.Shifted s₁.start s₂.start
  ahead : s₁.cursor.ahead = s₂.cursor.ahead
  place : origin.Shifted s₁.cursor.place s₂.cursor.place

/-- The comparison of a reader that has come to `origin` with one that starts there. -/
def fromOrigin (origin : Position) : Comparison where
  states := ReaderState.OverRest origin
  places := origin.Shifted
  faults e₁ e₂ := e₁.fault = e₂.fault ∧ origin.Shifted e₁.place e₂.place
  beyond _ := False
  excused _ := False

variable {origin : Position} {s₁ s₂ : ReaderState}

theorem fromOrigin_isTotal (origin : Position) : (fromOrigin origin).IsTotal :=
  ⟨fun _ => id, fun _ => id⟩

theorem fromOrigin_advance (h : s₁.OverRest origin s₂) :
    (fromOrigin origin).Results (Reader.advance s₁) (Reader.advance s₂) := by
  obtain ⟨⟨ahead, p₁⟩, t, start₁, depth⟩ := s₁
  obtain ⟨⟨_, p₂⟩, _, start₂, _⟩ := s₂
  obtain ⟨rfl, rfl, hstart, rfl, hplace⟩ := h
  have hblanks : origin.Shifted (Cursor.skipBlanks ⟨ahead, p₁⟩).place
      (Cursor.skipBlanks ⟨ahead, p₂⟩).place := by
    rw [Cursor.place_skipBlanks, Cursor.place_skipBlanks]
    exact hplace.after _
  rcases Lexer.next_anywhere ahead with
    ⟨t, rest, passed, hnext⟩ | ⟨fault, rest, passed, named, hnext⟩
  · rw [Reader.advance_of_next (hnext p₁), Reader.advance_of_next (hnext p₂)]
    exact .ok () ⟨rfl, rfl, hblanks, rfl, hplace.after passed⟩
  · rw [Reader.advance_of_fault (hnext p₁), Reader.advance_of_fault (hnext p₂)]
    exact .error (.lexical ⟨rfl, hplace.after named⟩) ⟨rfl, rfl, hblanks, rfl, hplace.after passed⟩

theorem fromOrigin_isLawful (origin : Position) : (fromOrigin origin).IsLawful where
  token_eq h := h.token
  depth_eq h := h.depth
  start h := h.start
  atDepth h n := ⟨h.token, rfl, h.start, h.ahead, h.place⟩
  beyond_atDepth h _ := h
  advance := ⟨fromOrigin_advance, False.elim⟩
  take := by
    refine ⟨fun {s₁ s₂} h => ?_, False.elim⟩
    have hgiven : ReaderState.OverRest origin { s₁ with token := .endOfText }
        { s₂ with token := .endOfText } := ⟨rfl, h.depth, h.start, h.ahead, h.place⟩
    exact fromOrigin_advance hgiven

theorem Comparison.Errors.eq_shift {e₁ e₂ : ReadError} (h : (fromOrigin origin).Errors e₁ e₂) :
    e₁ = e₂.shift origin := by
  cases h with
  | @lexical e₁ e₂ h =>
      obtain ⟨fault, place⟩ := e₁
      obtain ⟨rfl, hplace⟩ := h
      cases hplace.eq
      rfl
  | unexpected expected found h =>
      cases h.eq
      rfl
  | invalidDirection found h =>
      cases h.eq
      rfl
  | clauseArity clause count h =>
      cases h.eq
      rfl
  | tooDeep h =>
      cases h.eq
      rfl

theorem Comparison.Outcomes.eq_shift {α : Type} {r₁ r₂ : Except ReadError α}
    (h : (fromOrigin origin).Outcomes r₁ r₂) : r₁ = r₂.mapError (·.shift origin) := by
  cases h with
  | ok a => rfl
  | error h => rw [h.eq_shift, Except.mapError]

/-! ## The token ahead -/

theorem Reader.Passes.exists_readFrom {text : List Char} {s s' : ReaderState} {ts : List Token}
    (h : Passes s ts s') (hs : ∃ cursor, cursor.IsOn text ∧ s.ReadFrom cursor) :
    ∃ cursor, cursor.IsOn text ∧ s'.ReadFrom cursor := by
  induction h with
  | nil => exact hs
  | cons hadvance _ ih =>
      obtain ⟨cursor, hon, hread⟩ := hs
      exact ih ⟨_, Lexer.isOn_of_next hon hread.next, readFrom_of_advance hadvance⟩

/-- A new reader can be started at the token ahead. -/
theorem Reader.exists_start_overRest {text : List Char} {s : ReaderState} {cursor : Cursor}
    (hon : cursor.IsOn text) (hread : s.ReadFrom cursor) (hdepth : s.depth = 0) :
    ∃ s', Reader.start (text.drop s.start.offset) = .ok s' ∧ s.OverRest s.start s' := by
  obtain ⟨cursor', t, start, depth⟩ := s
  obtain ⟨hnext, rfl⟩ := hread
  cases hdepth
  -- Blanks have been skipped, so that the rest starts with the token.
  have hblanks : (Cursor.ofText cursor.skipBlanks.ahead).skipBlanks.place = Position.start := by
    rw [Cursor.place_skipBlanks, Cursor.ofText, cursor.takeWhile_skipBlanks]
    rfl
  rw [← Lexer.next_skipBlanks] at hnext
  rcases Lexer.next_anywhere cursor.skipBlanks.ahead with
    ⟨u, rest, passed, hrest⟩ | ⟨fault, rest, passed, named, hrest⟩
  · cases (hrest cursor.skipBlanks.place).symm.trans hnext
    refine ⟨⟨⟨rest, Position.start.after passed⟩, t, .start, 0⟩, ?_, rfl, rfl, ⟨[], rfl, rfl⟩, rfl,
      passed, rfl, rfl⟩
    rw [← hon.skipBlanks.ahead_eq, Reader.start, hblanks, Cursor.ofText, hrest]
  · cases (hrest cursor.skipBlanks.place).symm.trans hnext

namespace Call

theorem exists_passes_of_replies {calls : List Call} {s s' : ReaderState} {replies : List Reply}
    (h : runAll calls s = (replies.map .ok, s')) : ∃ ts, Reader.Passes s ts s' := by
  induction calls generalizing s replies with
  | nil =>
      obtain rfl : s = s' := (Prod.ext_iff.1 h).2
      exact ⟨[], .nil s⟩
  | cons call calls ih =>
      obtain ⟨hreplies, hend⟩ := Prod.ext_iff.1 h
      cases replies with
      | nil => cases hreplies
      | cons reply replies =>
          obtain ⟨hfirst, hrest⟩ := List.cons_eq_cons.1 hreplies
          obtain ⟨t, ts, hpasses⟩ :=
            exists_passes (Reader.eq_ok_of_outcome (Prod.ext_iff.2 ⟨hfirst, rfl⟩))
          obtain ⟨us, hpasses'⟩ := ih (Prod.ext_iff.2 ⟨hrest, hend⟩)
          exact ⟨_, hpasses.append hpasses'⟩

/-- After calls that have returned, the depth is zero again, and a new reader over the
text from the token ahead on answers all further calls alike, with the places counted
from there. -/
theorem as_good_as_new {text : String} {calls : List Call} {replies : List Reply}
    {s s₁ : ReaderState} (hstart : Reader.start text.toList = .ok s)
    (hcalls : runAll calls s = (replies.map .ok, s₁)) :
    s₁.depth = 0 ∧ s₁.start = Position.start.after (text.toList.take s₁.start.offset) ∧
      ∃ s₂, Reader.start (text.toList.drop s₁.start.offset) = .ok s₂ ∧ s₁.token = s₂.token ∧
        ∀ further, (runAll further s₁).1 =
          (runAll further s₂).1.map (Except.mapError (·.shift s₁.start)) := by
  obtain ⟨ts, hpasses⟩ := exists_passes_of_replies hcalls
  have hdepth : s₁.depth = 0 := hpasses.depth_eq.trans (Reader.start_eq_ok hstart).2
  obtain ⟨cursor, hon, hread⟩ := hpasses.exists_readFrom
    ⟨_, Cursor.isOn_ofText text.toList, Reader.readFrom_of_start hstart⟩
  obtain ⟨s₂, hfresh, hover⟩ := Reader.exists_start_overRest hon hread hdepth
  refine ⟨hdepth, ?_, s₂, hfresh, hover.token, fun further => ?_⟩
  · rw [hread.start]
    exact hon.skipBlanks.place_eq
  · have hresults := (Comparison.outcomes_runAll (fromOrigin_isLawful s₁.start)
      (fromOrigin_isTotal s₁.start) hover further).1
    generalize (runAll further s₁).1 = results₁ at hresults ⊢
    generalize (runAll further s₂).1 = results₂ at hresults ⊢
    induction hresults with
    | nil => rfl
    | cons hresult _ ih => rw [List.map_cons, ← hresult.eq_shift, ← ih]

/-- On the second line, the reader behind the sum is as good as a new one. -/
theorem as_good_as_new_behind_sum : ∃ s s₁ s₂ reply, Reader.start "a\n+b c)".toList = .ok s ∧
    runAll [.expression] s = ([.ok reply], s₁) ∧ s₁.depth = 0 ∧
    Reader.start "c)".toList = .ok s₂ ∧ ∀ further, (runAll further s₁).1 =
      (runAll further s₂).1.map (Except.mapError (·.shift ⟨2, 4, 5⟩)) := by
  have hstart : Reader.start "a\n+b c)".toList =
      .ok ⟨⟨"\n+b c)".toList, ⟨1, 2, 1⟩⟩, .word "a", .start, 0⟩ := by rfl
  have hsum : runAll [.expression] ⟨⟨"\n+b c)".toList, ⟨1, 2, 1⟩⟩, .word "a", .start, 0⟩ =
      ([.directive (.binary .plus (.column "a") (.column "b"))].map .ok,
        ⟨⟨")".toList, ⟨2, 5, 6⟩⟩, .word "c", ⟨2, 4, 5⟩, 0⟩) := by rfl
  obtain ⟨hdepth, -, s₂, hfresh, -, hfurther⟩ := as_good_as_new hstart hsum
  exact ⟨_, _, s₂, _, hstart, hsum, hdepth, hfresh, hfurther⟩

end Call

end QueryNotation
