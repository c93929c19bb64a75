import Mathlib.Logic.Function.Iterate
import QueryNotation.Proofs.CursorPlaces
import QueryNotation.Proofs.RunContracts

/-!
# Calls end, and go on from where they ended

Lists of arguments and of items are read round by round, and every round
takes a character of the text, so that some number of rounds is enough.
Whatever calls there were before, a call never moves the reader back. A
call that returns moves it on, unless the text is at its end, and leaves
the depth as it was. A call that fails may leave the reader deeper.
-/

namespace QueryNotation

open BinaryOperator Text

/-! ## Loops -/

namespace Reader

variable {α : Type} {s s' : ReaderState}

/-- The loop ends in every state, and comes to what `x` does: some number of rounds
is enough, whatever would be done after them. -/
def ComesTo (round : Reader α → Reader α) (x : Reader α) : Prop :=
  ∀ s, ∃ n, ∀ after : Reader α, round^[n] after s = x s

/-- One round of reading arguments, and what is done after it. -/
def argumentsRound (levels : Levels) (after : Reader (List Directive)) :
    Reader (List Directive) := do
  if (← get).token = .symbol .closeParen then
    advance
    pure []
  else
    let first ← levels.chain loosest
    separator
    pure (first :: (← after))

/-- One round of reading items, and what is done after it. -/
def itemsRound (after : Reader (List Directive)) : Reader (List Directive) := do
  let here ← possibleItem
  if (← get).token = .symbol .comma then
    advance
    pure (here ++ (← after))
  else
    pure here

/-- Reads items, however many there are. -/
def allItems : Reader (List Directive) := fun s => items (List.replicate s.remaining ' ') s

theorem argumentsRound_of_close {levels : Levels} {after : Reader (List Directive)}
    (h : s.token = .symbol .closeParen) :
    argumentsRound levels after s = (advance >>= fun _ => pure []) s := by
  rw [argumentsRound, get_bind, if_pos h]

theorem argumentsRound_of_ne {levels : Levels} {after : Reader (List Directive)}
    (h : s.token ≠ .symbol .closeParen) :
    argumentsRound levels after s = (levels.chain loosest >>= fun first =>
      separator >>= fun _ => after >>= fun rest => pure (first :: rest)) s := by
  rw [argumentsRound, get_bind, if_neg h]

theorem iterate_argumentsRound {room n : Nat} {after : Reader (List Directive)}
    {left : List Char} (hn : s.cursor.ahead.length < n)
    (hleft : s.cursor.ahead.length ≤ left.length) :
    (argumentsRound (levels room))^[n] after s = arguments (levels room) left s := by
  induction n generalizing s left with
  | zero => exact (Nat.not_lt_zero _ hn).elim
  | succ n ih =>
      rw [Function.iterate_succ_apply']
      by_cases hclose : s.token = .symbol .closeParen
      · rw [argumentsRound_of_close hclose, arguments_of_close hclose]
      · rw [argumentsRound_of_ne hclose, arguments_of_ne hclose]
        refine bind_congr_of_ok fun first s₁ hfirst => bind_congr_of_ok fun _ s₂ hseparator => ?_
        -- The round has taken a character, so that one round fewer is enough for the rest.
        have hlt := length_ahead_lt_of_argument hfirst hseparator
        obtain ⟨c, left, rfl⟩ := List.exists_cons_of_length_pos (l := left) (by omega)
        rw [List.length_cons] at hleft
        exact bind_of_eq (ih (by omega) (by omega))

theorem callArguments_comesTo (room : Nat) :
    ComesTo (argumentsRound (levels room)) (callArguments (levels room)) :=
  fun s => ⟨s.cursor.ahead.length + 1, fun _ =>
    iterate_argumentsRound (Nat.lt_succ_self _) (Nat.le_refl _)⟩

theorem iterate_itemsRound {n : Nat} {after : Reader (List Directive)} {left : List Char}
    (hn : s.remaining < n) (hleft : s.remaining ≤ left.length) :
    itemsRound^[n] after s = items left s := by
  induction n generalizing s left with
  | zero => exact (Nat.not_lt_zero _ hn).elim
  | succ n ih =>
      rw [Function.iterate_succ_apply', itemsRound, items_eq]
      refine bind_congr_of_ok fun here s₁ hhere => ?_
      rw [get_bind]
      by_cases hcomma : s₁.token = .symbol .comma
      · have hlt := length_ahead_lt_of_possibleItem hhere hcomma
        obtain ⟨c, left, rfl⟩ := List.exists_cons_of_length_pos (l := left) (by omega)
        rw [List.length_cons] at hleft
        rw [if_pos hcomma, itemsRest_cons hcomma]
        refine bind_congr_of_ok fun _ s₂ hadvance => bind_of_eq ?_
        have hle := remaining_le_of_advance hadvance
        exact ih (by omega) (by omega)
      · rw [if_neg hcomma, itemsRest_of_ne hcomma]
        rfl

theorem allItems_comesTo : ComesTo itemsRound allItems :=
  fun s => ⟨s.remaining + 1, fun _ =>
    iterate_itemsRound (Nat.lt_succ_self _) (Nat.le_of_eq List.length_replicate.symm)⟩

/-- In a query the items are never cut off. -/
theorem query_eq_allItems : query = (do
    let table ← expectWord
    expect (.symbol .openBracket)
    let directives ← allItems
    expect (.symbol .closeBracket)
    expect .endOfText
    pure ((Query.new table).appendAll directives)) := by
  refine funext fun s => bind_congr_of_ok fun table s₁ _ => ?_
  rw [get_bind]
  refine bind_congr_of_ok fun _ s₂ hopen => bind_of_eq ?_
  have hle := remaining_le_of_advance (expect_eq_ok hopen).2
  exact items_eq_of_remaining_le hle (Nat.le_of_eq List.length_replicate.symm)

end Reader

/-! ## Moving on -/

/-- The cursor is past a token that starts at the place, or it cannot move. -/
structure Text.Cursor.IsPast (text : List Char) (start : Position) (s : Cursor) : Prop where
  isOn : s.IsOn text
  start_le : start.offset ≤ s.place.offset
  moved : start.offset < s.place.offset ∨ s.ahead = [] ∨ ∃ e, Lexer.next s = .error e s

section

variable {text : List Char} {s stop : Cursor} {t : Token} {e : LexError}

theorem Lexer.isPast_of_next (h : s.IsOn text) (hnext : next s = .ok t stop) :
    stop.IsPast text s.skipBlanks.place := by
  have hstop := isOn_of_next h hnext
  obtain ⟨n, rfl⟩ := exists_advance_of_next hnext
  refine ⟨hstop, Cursor.offset_le_advance _ n, ?_⟩
  by_cases hend : t = .endOfText
  · subst hend
    exact .inr (.inl (ahead_eq_nil_of_next hnext))
  · rw [← next_skipBlanks] at hnext
    exact .inl (h.skipBlanks.offset_lt hstop (Lexing.length_ahead_lt_of_next hnext hend))

theorem Lexer.isPast_of_error (h : s.IsOn text) (hnext : next s = .error e stop) :
    stop.IsPast text s.skipBlanks.place := by
  have hstop := isOn_of_error h hnext
  rcases next_eq_error hnext with ⟨c, -, rfl, -⟩ | ⟨-, hlt, -⟩
  · rw [← next_skipBlanks] at hnext
    exact ⟨hstop, Nat.le_refl _, .inr (.inr ⟨e, hnext⟩)⟩
  · have hmoved := h.skipBlanks.offset_lt hstop hlt
    exact ⟨hstop, Nat.le_of_lt hmoved, .inl hmoved⟩

end

/-! ## What a call does to the state -/

variable {text : List Char}

/-- The state has not moved back. -/
structure ReaderState.Advances (s s' : ReaderState) : Prop where
  cursor : s.cursor.place.offset ≤ s'.cursor.place.offset
  start : s.start.offset ≤ s'.start.offset
  depth : s.depth ≤ s'.depth

theorem ReaderState.Advances.refl (s : ReaderState) : s.Advances s :=
  ⟨Nat.le_refl _, Nat.le_refl _, Nat.le_refl _⟩

theorem ReaderState.Advances.trans {s s₁ s' : ReaderState} (h : s.Advances s₁)
    (h' : s₁.Advances s') : s.Advances s' :=
  ⟨Nat.le_trans h.cursor h'.cursor, Nat.le_trans h.start h'.start, Nat.le_trans h.depth h'.depth⟩

/-- A state past a token comes to one past a token, and does not move back. -/
def ReaderState.KeepsOn (text : List Char) (s s' : ReaderState) : Prop :=
  s.cursor.IsPast text s.start → s'.cursor.IsPast text s'.start ∧ s.Advances s'

/-- What holds of every run, whether it returns or fails. -/
def Contract.always (R : ReaderState → ReaderState → Prop) : Contract where
  returns := R
  fails s _ s' := R s s'

theorem Contract.Meets.outcome {α : Type} {R : ReaderState → ReaderState → Prop} {x : Reader α}
    (hx : (always R).Meets x) (s : ReaderState) : R s (x.outcome s).2 := by
  have hrun := hx s
  unfold Reader.outcome
  generalize x s = r at hrun ⊢
  cases r <;> exact hrun

/-- Reading a token puts the start behind the blanks and the cursor behind what was read. -/
theorem ReaderState.KeepsOn.of_stop {s s' : ReaderState} {n : Nat}
    (hcursor : s'.cursor = s.cursor.skipBlanks.advance n)
    (hstart : s'.start = s.cursor.skipBlanks.place) (hdepth : s'.depth = s.depth)
    (hpast : s.cursor.IsOn text → s'.cursor.IsPast text s.cursor.skipBlanks.place) :
    s.KeepsOn text s' := by
  intro h
  have hblanks : s.cursor.place.offset ≤ s.cursor.skipBlanks.place.offset :=
    Cursor.offset_le_advance _ _
  refine ⟨hstart ▸ hpast h.isOn, ?_, ?_, Nat.le_of_eq hdepth.symm⟩
  · rw [hcursor]
    exact Nat.le_trans hblanks (Cursor.offset_le_advance _ n)
  · rw [hstart]
    exact Nat.le_trans h.start_le hblanks

theorem ReaderState.keepsOn_isLawful (text : List Char) :
    (Contract.always (KeepsOn text)).IsLawful where
  refl s h := ⟨h, .refl s⟩
  trans h h' hs := ⟨(h' (h hs).1).1, (h hs).2.trans (h' (h hs).1).2⟩
  fails_after h h' hs := ⟨(h' (h hs).1).1, (h hs).2.trans (h' (h hs).1).2⟩
  read hnext := by
    obtain ⟨n, hstop⟩ := Lexer.exists_advance_of_next hnext
    exact .of_stop hstop rfl rfl fun hs => Lexer.isPast_of_next hs hnext
  fault _ hnext := by
    obtain ⟨n, hstop⟩ := Lexer.exists_advance_of_error hnext
    exact .of_stop hstop rfl rfl fun hs => Lexer.isPast_of_error hs hnext
  unexpected s _ h := ⟨h, .refl s⟩
  descend _ h := ⟨h, Nat.le_refl _, Nat.le_refl _, Nat.le_succ _⟩
  tooDeep _ h := ⟨h, Nat.le_refl _, Nat.le_refl _, Nat.le_succ _⟩
  restore h hs := ⟨(h hs).1, (h hs).2.cursor, (h hs).2.start, Nat.le_refl _⟩

theorem ReaderState.keepsOn_allowsClauses (text : List Char) :
    (Contract.always (KeepsOn text)).AllowsClauses := fun h _ hs => h hs

/-! ## Calls that return -/

namespace Reader

variable {s s' : ReaderState} {ts : List Token}

theorem Passes.returns {C : Contract} (hC : C.IsLawful) (h : Passes s ts s') : C.returns s s' := by
  induction h with
  | nil s => exact hC.refl s
  | @cons s s₁ s₂ ts h hs ih =>
      have hadvance := Contract.Meets.advance hC s
      rw [h] at hadvance
      exact hC.trans hadvance ih

/-- At the end of the text the reader comes to rest. -/
theorem advance_at_end (h : s.cursor.ahead = []) (hadvance : advance s = .ok () s') :
    s'.AtEnd ∧ s'.start = s'.cursor.place := by
  have hblanks : s.cursor.skipBlanks.ahead = [] := by
    rw [Cursor.ahead_skipBlanks, h]
    rfl
  rw [advance_of_next (Lexer.next_of_ahead_eq_nil hblanks)] at hadvance
  cases hadvance
  exact ⟨⟨rfl, hblanks⟩, rfl⟩

theorem Passes.at_end {t : Token} (h : Passes s (t :: ts) s') (hend : s.cursor.ahead = []) :
    s'.AtEnd ∧ s'.start = s'.cursor.place := by
  induction ts generalizing s t with
  | nil =>
      obtain ⟨-, s₁, hadvance, hrest⟩ := h.cons_inv
      cases hrest
      exact advance_at_end hend hadvance
  | cons u ts ih =>
      obtain ⟨-, s₁, hadvance, hrest⟩ := h.cons_inv
      exact ih hrest (advance_at_end hend hadvance).1.2

/-- Passing a token moves the start on, unless the text ends there. -/
theorem Passes.moves {t : Token} (h : Passes s (t :: ts) s')
    (hs : s.cursor.IsPast text s.start) :
    s.start.offset < s'.start.offset ∨ (s'.AtEnd ∧ s'.start.offset = text.length) := by
  have hlawful := ReaderState.keepsOn_isLawful text
  obtain ⟨-, s₁, hadvance, hrest⟩ := h.cons_inv
  have hfirst := (Passes.single hadvance).returns hlawful hs
  -- The cursor is behind the token ahead, or at the end, or in front of what no token
  -- starts with; there, nothing could have been passed.
  rcases hs.moved with hmoved | hend | ⟨e, hstuck⟩
  · have hskip : s.cursor.place.offset ≤ s₁.start.offset := by
      rw [(advance_eq_ok hadvance).2.1]
      exact Cursor.offset_le_advance _ _
    have hlater := (hrest.returns hlawful hfirst.1).2.start
    exact .inl (by omega)
  · obtain ⟨hatEnd, hstart⟩ := h.at_end hend
    have hoffset := (h.returns hlawful hs).1.isOn.offset_add_length
    rw [hatEnd.2, List.length_nil, Nat.add_zero] at hoffset
    exact .inr ⟨hatEnd, by rw [hstart, hoffset]⟩
  · rw [(advance_eq_ok hadvance).1] at hstuck
    cases hstuck

theorem isPast_of_start (h : start text = .ok s) : s.cursor.IsPast text s.start := by
  rw [start_place h]
  exact Lexer.isPast_of_next (Cursor.isOn_ofText text) (start_eq_ok h).1

end Reader

namespace Call

theorem keepsOn_of_outcome {call : Call} {s s' : ReaderState} {result : Except ReadError Reply}
    (text : List Char) (h : call.reader.outcome s = (result, s')) : s.KeepsOn text s' := by
  have hcall := (Contract.Meets.call (ReaderState.keepsOn_isLawful text)
    (ReaderState.keepsOn_allowsClauses text) call).outcome s
  rwa [h] at hcall

/-- Whatever calls there were, the state is past a token of the text and has not
moved back. -/
theorem runAll_keepsOn (text : List Char) (calls : List Call) (s : ReaderState) :
    s.KeepsOn text (runAll calls s).2 :=
  relates_runAll (ReaderState.keepsOn_isLawful text).refl (ReaderState.keepsOn_isLawful text).trans
    (fun _ _ => keepsOn_of_outcome text rfl) calls s

/-- Lists of arguments and of items end, and all other reading is bounded by the levels
that are left. No call moves the reader back or past the end of the text. One that
returns moves it on or leaves it at the end, at the same depth; one that fails does
not leave it at a smaller depth. -/
theorem ends_and_goes_on :
    (∀ room, Reader.ComesTo (Reader.argumentsRound (Reader.levels room))
        (Reader.callArguments (Reader.levels room))) ∧
      Reader.ComesTo Reader.itemsRound Reader.allItems ∧
      Reader.query = (do
        let table ← Reader.expectWord
        Reader.expect (.symbol .openBracket)
        let directives ← Reader.allItems
        Reader.expect (.symbol .closeBracket)
        Reader.expect .endOfText
        pure ((Query.new table).appendAll directives)) ∧
      ∀ {text : String} {s : ReaderState}, Reader.start text.toList = .ok s →
        ∀ (before : List Call) (call : Call) {s₁ s₂ : ReaderState}
          {result : Except ReadError Reply}, (runAll before s).2 = s₁ →
          call.reader.outcome s₁ = (result, s₂) →
          s₁.Advances s₂ ∧ s₂.start.offset ≤ s₂.cursor.place.offset ∧
          s₂.cursor.place.offset ≤ text.length ∧
          ∀ reply, result = .ok reply → s₂.depth = s₁.depth ∧
            (s₁.start.offset < s₂.start.offset ∨
              (s₂.AtEnd ∧ s₂.start.offset = text.length)) := by
  refine ⟨Reader.callArguments_comesTo, Reader.allItems_comesTo, Reader.query_eq_allItems, ?_⟩
  rintro text s hstart before call s₁ s₂ result rfl hcall
  have hbefore := (runAll_keepsOn text.toList before s (Reader.isPast_of_start hstart)).1
  obtain ⟨hpast, hadvances⟩ := keepsOn_of_outcome text.toList hcall hbefore
  have hlength := hpast.isOn.offset_add_length
  rw [String.length_toList] at hlength
  refine ⟨hadvances, hpast.start_le, by omega, fun reply hreply => ?_⟩
  obtain ⟨t, ts, hpasses⟩ := exists_passes (Reader.eq_ok_of_outcome (hreply ▸ hcall))
  rw [← String.length_toList]
  exact ⟨hpasses.depth_eq, hpasses.moves hbefore⟩

/-- After a call for a query that fails at the parenthesis, the group is read, and
the next token starts behind it. -/
theorem group_read_after_failure : ∃ s s₁ s₂ reply, Reader.start "a(b) c".toList = .ok s ∧
    (runAll [.query] s).2 = s₁ ∧ Call.expression.reader.outcome s₁ = (.ok reply, s₂) ∧
    s₁.start.offset = 1 ∧ s₂.start.offset = 5 ∧ s₁.Advances s₂ ∧ s₂.depth = s₁.depth := by
  have hstart : Reader.start "a(b) c".toList =
      .ok ⟨⟨"(b) c".toList, ⟨1, 2, 1⟩⟩, .word "a", .start, 0⟩ := by rfl
  have hquery : (runAll [.query] ⟨⟨"(b) c".toList, ⟨1, 2, 1⟩⟩, .word "a", .start, 0⟩).2 =
      ⟨⟨"b) c".toList, ⟨1, 3, 2⟩⟩, .symbol .openParen, ⟨1, 2, 1⟩, 0⟩ := by rfl
  have hgroup : Call.expression.reader.outcome
      ⟨⟨"b) c".toList, ⟨1, 3, 2⟩⟩, .symbol .openParen, ⟨1, 2, 1⟩, 0⟩ =
        (.ok (.directive (.group (.column "b"))),
          ⟨⟨"".toList, ⟨1, 7, 6⟩⟩, .word "c", ⟨1, 6, 5⟩, 0⟩) := by rfl
  obtain ⟨hadvances, -, -, hreply⟩ :=
    ends_and_goes_on.2.2.2 hstart [.query] .expression hquery hgroup
  exact ⟨_, _, _, _, hstart, hquery, hgroup, rfl, rfl, hadvances, (hreply _ rfl).1⟩

end Call

end QueryNotation
