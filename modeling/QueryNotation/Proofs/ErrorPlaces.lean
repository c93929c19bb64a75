import QueryNotation.Proofs.LexingPlaces
import QueryNotation.Proofs.RunContracts

/-!
# What errors point at

The token ahead and its place are kept in step with the text by every
reader that goes on, and an error carries one of the places that were in
step. So an error names a token of the text, or it is the fault at which
the text cannot be read any further. What is wrong with a clause is said of
a call that has been read whole, at the place of its name.
-/

namespace QueryNotation

open BinaryOperator Text

/-! ## The token ahead and the text -/

/-- The token ahead follows those before it in the text. -/
def ReaderState.Follows (l : Lexing) (before : List (Token × Position)) (s : ReaderState) : Prop :=
  ∃ cursor, s.ReadFrom cursor ∧ l.Continues before cursor

namespace ReaderState.Follows

variable {l : Lexing} {before : List (Token × Position)} {s s' : ReaderState} {e : LexError}
  {stop : Cursor}

theorem exists_rest (h : s.Follows l before) :
    ∃ after, l.tokens = before ++ (s.token, s.start) :: after := by
  obtain ⟨cursor, hread, hcontinues⟩ := h
  rw [hread.start]
  exact hcontinues.exists_rest hread.next

theorem mem (h : s.Follows l before) : (s.token, s.start) ∈ l.tokens := by
  obtain ⟨after, htokens⟩ := h.exists_rest
  rw [htokens]
  exact List.mem_append_right _ List.mem_cons_self

theorem atDepth (h : s.Follows l before) (n : Nat) : (s.atDepth n).Follows l before := by
  obtain ⟨cursor, hread, hcontinues⟩ := h
  exact ⟨cursor, ⟨hread.next, hread.start⟩, hcontinues⟩

/-- Behind the token ahead the text goes on, or it is still at its end. -/
theorem continues (h : s.Follows l before) : ∃ before', l.Continues before' s.cursor ∧
    (s.token ≠ .endOfText → before' = before ++ [(s.token, s.start)]) := by
  obtain ⟨cursor, hread, hcontinues⟩ := h
  by_cases hend : s.token = .endOfText
  · exact ⟨before, hcontinues.stay (hend ▸ hread.next), fun hne => (hne hend).elim⟩
  · rw [hread.start]
    exact ⟨_, hcontinues.step hread.next hend, fun _ => rfl⟩

theorem failure_eq (h : s.Follows l before) (hnext : Lexer.next s.cursor = .error e stop) :
    l.failure = some e := by
  obtain ⟨before', hcontinues, -⟩ := h.continues
  exact hcontinues.failure_eq hnext

theorem advance (h : s.Follows l before) (hadvance : Reader.advance s = .ok () s') :
    ∃ before', s'.Follows l before' ∧
      (s.token ≠ .endOfText → before' = before ++ [(s.token, s.start)]) := by
  obtain ⟨before', hcontinues, hbefore⟩ := h.continues
  exact ⟨before', ⟨_, Reader.readFrom_of_advance hadvance, hcontinues⟩, hbefore⟩

theorem passes {ts : List Token} (h : s.Follows l before) (hpasses : Reader.Passes s ts s')
    (hts : .endOfText ∉ ts) :
    ∃ passed, passed.map (·.1) = ts ∧ s'.Follows l (before ++ passed) := by
  induction hpasses generalizing before with
  | nil => exact ⟨[], rfl, by rwa [List.append_nil]⟩
  | @cons s s₁ s₂ ts hadvance _ ih =>
      rw [List.mem_cons, not_or] at hts
      obtain ⟨before', hs₁, hbefore⟩ := h.advance hadvance
      obtain ⟨passed, hpassed, hs₂⟩ := ih hs₁ hts.2
      refine ⟨(s.token, s.start) :: passed, by rw [List.map_cons, hpassed], ?_⟩
      rw [hbefore (Ne.symm hts.1), List.append_assoc] at hs₂
      exact hs₂

end ReaderState.Follows

theorem ReaderState.follows_of_start {text : String} {s : ReaderState}
    (h : Reader.start text.toList = .ok s) : s.Follows (.ofText text) [] :=
  ⟨_, Reader.readFrom_of_start h, rfl, rfl⟩

/-! ## Errors of runs -/

/-- The error is the fault of the text, or it stands at one of the tokens. -/
def ReadError.IsFoundIn (l : Lexing) : ReadError → Prop
  | lexical e => l.failure = some e
  | unexpected _ found place => (found, place) ∈ l.tokens
  | invalidDirection _ place | clauseArity _ _ place | tooDeep place => ∃ t, (t, place) ∈ l.tokens

/-- Runs keep in step with the text, and their errors are found in it. -/
def keepingStep (l : Lexing) : Contract where
  returns s s' := (∃ before, s.Follows l before) → ∃ before, s'.Follows l before
  fails s e _ := (∃ before, s.Follows l before) → e.IsFoundIn l

theorem keepingStep_isLawful (l : Lexing) : (keepingStep l).IsLawful where
  refl _ hs := hs
  trans h h' hs := h' (h hs)
  fails_after h h' hs := h' (h hs)
  read hnext := fun ⟨_, hs⟩ =>
    (hs.advance (Reader.advance_of_next hnext)).imp fun _ hs' => hs'.1
  fault _ hnext := fun ⟨_, hs⟩ => hs.failure_eq hnext
  unexpected _ _ := fun ⟨_, hs⟩ => hs.mem
  descend _ := fun ⟨before, hs⟩ => ⟨before, hs.atDepth _⟩
  tooDeep _ := fun ⟨_, hs⟩ => ⟨_, hs.mem⟩
  restore h hs := (h hs).imp fun _ hs' => hs'.atDepth _

theorem keepingStep_allowsClauses (l : Lexing) : (keepingStep l).AllowsClauses := by
  rintro s s' word arguments e - hclause ⟨before, hs⟩
  rcases Reader.clauseOfCall_eq_error hclause with rfl | ⟨key, direction, -, -, rfl⟩
  · exact ⟨_, hs.mem⟩
  · exact ⟨_, hs.mem⟩

/-! ## Errors of clauses -/

/-- The error is about the clause that a call stands for. -/
def ReadError.IsAboutClause : ReadError → Prop
  | invalidDirection .. | clauseArity .. => True
  | lexical _ | unexpected .. | tooDeep _ => False

/-- Clauses are not looked at. -/
def clauseless : Contract where
  returns _ _ := True
  fails _ e _ := ¬ e.IsAboutClause

theorem clauseless_isLawful : clauseless.IsLawful where
  refl _ := trivial
  trans _ _ := trivial
  fails_after _ h := h
  read _ := trivial
  fault _ _ := id
  unexpected _ _ := id
  descend _ := trivial
  tooDeep _ := id
  restore _ := trivial

/-- The tokens in front of an item, after the opening bracket: none, or other items
and a comma. -/
def InFrontOfItem (ts : List Token) : Prop :=
  ts = [] ∨ ∃ n us ds, ts = us ++ [.symbol .comma] ∧ DerivesItems n us ds

theorem InFrontOfItem.after {n : Nat} {ts us : List Token} {here : List Directive}
    (h : InFrontOfItem us) (hhere : DerivesSlot n ts here) :
    InFrontOfItem (ts ++ .symbol .comma :: us) := by
  rcases h with rfl | ⟨m, vs, ds, rfl, hitems⟩
  · exact .inr ⟨n, ts, here, rfl, .last hhere⟩
  · exact .inr ⟨max n m, ts ++ .symbol .comma :: vs, here ++ ds, by simp, .cons hhere hitems⟩

theorem InFrontOfItem.endOfText_notMem {ts : List Token} (h : InFrontOfItem ts) :
    .endOfText ∉ ts := by
  rcases h with rfl | ⟨n, us, ds, rfl, hitems⟩
  · exact List.not_mem_nil
  · simp [hitems.endOfText_notMem]

/-- The tokens in front of an item of a query. -/
def Query.InFrontOfItem (ts : List Token) : Prop :=
  ∃ table us, ts = .word table :: .symbol .openBracket :: us ∧ QueryNotation.InFrontOfItem us

namespace Reader

variable {s s' : ReaderState} {e : ReadError} {ts : List Token}

theorem not_isAboutClause {α : Type} {x : Reader α} (hx : clauseless.Meets x)
    (h : x s = .error e s') : ¬ e.IsAboutClause := by
  have hrun := hx s
  rwa [h] at hrun

/-- What is wrong with a clause is found out from a call that has been read. -/
theorem item_eq_error_of_clause (h : item s = .error e s') (he : e.IsAboutClause) :
    ∃ word arguments, word ∈ clauseNames ∧ expression s = .ok (.call word arguments) s' ∧
      clauseOfCall word arguments s.start = .error e := by
  have hlawful := clauseless_isLawful
  have hmarker (d : Directive) : clauseless.Meets (advance >>= fun _ => pure d) :=
    .bind hlawful (.advance hlawful) fun _ => .pure hlawful d
  by_cases hdistinct : s.token = .word "distinct"
  · rw [item_of_distinct hdistinct] at h
    exact (not_isAboutClause (hmarker _) h he).elim
  by_cases hall : s.token = .word "all"
  · rw [item_of_all hall] at h
    exact (not_isAboutClause (hmarker _) h he).elim
  by_cases hclause : ∃ word, s.token = .word word ∧ word ∈ clauseNames
  · obtain ⟨word, ht, hword⟩ := hclause
    rw [item_of_clauseWord ht hword] at h
    rcases bind_eq_error h with hexpression | ⟨d, s₁, hexpression, h⟩
    · exact (not_isAboutClause (.expression hlawful) hexpression he).elim
    obtain ⟨arguments, rfl, hresult, rfl⟩ := asItem_eq_error h
    exact ⟨word, arguments, hword, hexpression, hresult⟩
  · have hplain : ∀ word, s.token = .word word → word ∉ clauseNames :=
      fun word ht hword => hclause ⟨word, ht, hword⟩
    rw [item_of_expression hdistinct hall hplain] at h
    exact (not_isAboutClause (.expression hlawful) h he).elim

theorem directive_eq_error_of_clause (h : directive s = .error e s') (he : e.IsAboutClause) :
    ∃ s₁, item s = .error e s₁ := by
  have hlawful := clauseless_isLawful
  rcases bind_eq_error h with hitem | ⟨d, s₁, -, h⟩
  · exact ⟨s', hitem⟩
  · have hrest : clauseless.Meets (expect .endOfText >>= fun _ => pure d) :=
      .bind hlawful (.expect hlawful _) fun _ => .pure hlawful d
    exact (not_isAboutClause hrest h he).elim

theorem item_eq_error_of_possibleItem (h : possibleItem s = .error e s') :
    item s = .error e s' := by
  by_cases hempty : s.token = .symbol .closeBracket ∨ s.token = .symbol .comma
  · rw [possibleItem_of_empty hempty] at h
    cases h
  · rw [not_or] at hempty
    rw [possibleItem_of_ne hempty.1 hempty.2] at h
    rcases bind_eq_error h with hitem | ⟨d, s₁, -, h⟩
    · exact hitem
    · cases h

theorem items_eq_error_of_clause {left : List Char} (h : items left s = .error e s')
    (he : e.IsAboutClause) : ∃ ts s₁ s₂, Passes s ts s₁ ∧ InFrontOfItem ts ∧
      item s₁ = .error e s₂ := by
  have hlawful := clauseless_isLawful
  have hfirst {s : ReaderState} (h : possibleItem s = .error e s') : ∃ ts s₁ s₂, Passes s ts s₁ ∧
      InFrontOfItem ts ∧ item s₁ = .error e s₂ :=
    ⟨[], s, s', .nil s, .inl rfl, item_eq_error_of_possibleItem h⟩
  induction left generalizing s with
  | nil =>
      rw [items_eq] at h
      rcases bind_eq_error h with hhere | ⟨here, s₁, -, hrest⟩
      · exact hfirst hhere
      by_cases hcomma : s₁.token = .symbol .comma
      · rw [itemsRest_nil hcomma] at hrest
        exact (not_isAboutClause (.fail hlawful _) hrest he).elim
      · rw [itemsRest_of_ne hcomma] at hrest
        cases hrest
  | cons c left ih =>
      rw [items_eq] at h
      rcases bind_eq_error h with hhere | ⟨here, s₁, hhere, hrest⟩
      · exact hfirst hhere
      by_cases hcomma : s₁.token = .symbol .comma
      · rw [itemsRest_cons hcomma] at hrest
        rcases bind_eq_error hrest with hadvance | ⟨_, s₂, hadvance, hrest⟩
        · exact (not_isAboutClause (.advance hlawful) hadvance he).elim
        rcases bind_eq_error hrest with hitems | ⟨rest, s₃, -, hrest⟩
        · obtain ⟨n, ts, hpasses, hslot, -⟩ := possibleItem_sound hhere
          obtain ⟨us, s₃, s₄, hpasses', hfront, hitem⟩ := ih hitems
          exact ⟨_, s₃, s₄, hpasses.append (hcomma ▸ .cons hadvance hpasses'), hfront.after hslot,
            hitem⟩
        · cases hrest
      · rw [itemsRest_of_ne hcomma] at hrest
        cases hrest

theorem query_eq_error_of_clause (h : query s = .error e s') (he : e.IsAboutClause) :
    ∃ ts s₁ s₂, Passes s ts s₁ ∧ Query.InFrontOfItem ts ∧ item s₁ = .error e s₂ := by
  have hlawful := clauseless_isLawful
  rcases bind_eq_error h with htable | ⟨table, s₁, htable, h⟩
  · exact (not_isAboutClause (.expectWord hlawful) htable he).elim
  rw [get_bind] at h
  rcases bind_eq_error h with hopen | ⟨_, s₂, hopen, h⟩
  · exact (not_isAboutClause (.expect hlawful _) hopen he).elim
  obtain ⟨hword, hadvance⟩ := expectWord_eq_ok htable
  obtain ⟨hbracket, hadvance'⟩ := expect_eq_ok hopen
  rcases bind_eq_error h with hitems | ⟨ds, s₃, -, h⟩
  · obtain ⟨ts, s₃, s₄, hpasses, hfront, hitem⟩ := items_eq_error_of_clause hitems he
    exact ⟨_, s₃, s₄, hword ▸ .cons hadvance (hbracket ▸ .cons hadvance' hpasses),
      ⟨table, ts, rfl, hfront⟩, hitem⟩
  · have hrest : clauseless.Meets (expect (.symbol .closeBracket) >>= fun _ =>
        expect .endOfText >>= fun _ => pure ((Query.new table).appendAll ds)) :=
      .bind hlawful (.expect hlawful _) fun _ => .bind hlawful (.expect hlawful _) fun _ =>
        .pure hlawful _
    exact (not_isAboutClause hrest h he).elim

end Reader

/-! ## Errors of texts -/

/-- A call with the arguments `parts` is written in the text. Its name starts at the
place, and `front` holds of the tokens in front of it. -/
def CallAt (text : String) (front : List Token → Prop) (name : String) (place : Position)
    (parts : List (List Token × Directive)) : Prop :=
  ∃ before call after ts,
    (Lexing.ofText text).tokens = before ++ (.word name, place) :: (call ++ after) ∧
    front (before.map (·.1)) ∧
    call.map (·.1) = .symbol .openParen :: (ts ++ [.symbol .closeParen]) ∧
    CommaJoined parts ts ∧ ∀ p ∈ parts, Derives loosest p.1 p.2

/-- What an error says is so in the text: a fault is the one that the text has, and
all other errors stand before it; the token that was found and the token that lies too
deep are there; and so is the call that is no clause, with the name of one and at the
front of an item. -/
structure ReadError.PointsInto (text : String) (front : List Token → Prop) (e : ReadError) :
    Prop where
  lexical : ∀ {fault}, e = .lexical fault →
    ∃ stop, Lexer.all (.ofText text.toList) = .error fault stop
  precedes : ∀ {fault stop}, Lexer.all (.ofText text.toList) = .error fault stop →
    (∀ fault, e ≠ .lexical fault) → e.place.offset < fault.place.offset
  unexpected : ∀ {expected found place}, e = .unexpected expected found place →
    (found, place) ∈ (Lexing.ofText text).tokens ∧
    (∃ stop, Lexer.next (.ofText (text.toList.drop place.offset)) = .ok found stop) ∧
    (found = .endOfText → place.offset = text.length)
  tooDeep : ∀ {place}, e = .tooDeep place →
    ∃ t, (t, place) ∈ (Lexing.ofText text).tokens ∧ (t = .endOfText → place.offset = text.length)
  clauseArity : ∀ {clause count place}, e = .clauseArity clause count place →
    clause ∈ clauseNames ∧ ∃ parts, CallAt text front clause place parts ∧ parts.length = count
  invalidDirection : ∀ {found place}, e = .invalidDirection found place →
    ∃ key direction, CallAt text front "order" place [key, direction] ∧ direction.2 = found

variable {text : String} {front : List Token → Prop} {e : ReadError} {s s₁ s₂ : ReaderState}

/-- The call that is no clause is one of the text. -/
theorem exists_callAt {ts : List Token} (hstart : Reader.start text.toList = .ok s)
    (hpasses : Reader.Passes s ts s₁) (hfront : front ts) (hts : .endOfText ∉ ts)
    (hitem : Reader.item s₁ = .error e s₂) (he : e.IsAboutClause) :
    ∃ word place parts, word ∈ clauseNames ∧ CallAt text front word place parts ∧
      Reader.clauseOfCall word (parts.map (·.2)) place = .error e := by
  obtain ⟨word, arguments, hword, hexpression, hclause⟩ := Reader.item_eq_error_of_clause hitem he
  obtain ⟨us, hcall, hderives, -⟩ := Reader.expression_sound hexpression
  have hmem := hderives.endOfText_notMem
  obtain ⟨vs, parts, rfl, hjoined, hparts, rfl⟩ := hderives.call_inv
  obtain ⟨hname, s₃, hadvance, hrest⟩ := hcall.cons_inv
  rw [List.mem_cons, not_or] at hmem
  -- The name is passed by itself, because its place is the one that the error has.
  obtain ⟨before, rfl, hs₁⟩ := (ReaderState.follows_of_start hstart).passes hpasses hts
  obtain ⟨_, hs₃, heq⟩ := hs₁.advance hadvance
  cases heq (hname ▸ Ne.symm hmem.1)
  obtain ⟨call, hcall, hs₂⟩ := hs₃.passes hrest hmem.2
  obtain ⟨after, htokens⟩ := hs₂.exists_rest
  rw [hname, List.nil_append, List.append_assoc, List.append_assoc] at htokens
  exact ⟨word, s₁.start, parts, hword,
    ⟨before, call, _, vs, htokens, hfront, hcall, hjoined, hparts⟩, hclause⟩

theorem ReadError.pointsInto (hfound : e.IsFoundIn (.ofText text))
    (hclause : e.IsAboutClause → ∃ word place parts, word ∈ clauseNames ∧
      CallAt text front word place parts ∧
        Reader.clauseOfCall word (parts.map (·.2)) place = .error e) :
    e.PointsInto text front where
  lexical := by
    rintro fault rfl
    exact Lexer.all_eq_error_iff.2 hfound
  precedes := by
    intro fault stop hfault hne
    have hmem : ∃ t, (t, e.place) ∈ (Lexing.ofText text).tokens := by
      cases e with
      | lexical fault => exact (hne fault rfl).elim
      | unexpected expected found place => exact ⟨found, hfound⟩
      | invalidDirection | clauseArity | tooDeep => exact hfound
    obtain ⟨t, hmem⟩ := hmem
    exact Lexing.offset_lt_failure (Cursor.isOn_ofText _) hmem
      (Lexer.all_eq_error_iff.1 ⟨stop, hfault⟩)
  unexpected := by
    rintro expected found place rfl
    exact ⟨hfound, Lexing.next_drop_of_mem hfound⟩
  tooDeep := by
    rintro place rfl
    obtain ⟨t, hmem⟩ := hfound
    exact ⟨t, hmem, (Lexing.next_drop_of_mem hmem).2⟩
  clauseArity := by
    rintro clause count place rfl
    obtain ⟨word, place', parts, hword, hcall, h⟩ := hclause trivial
    rcases Reader.clauseOfCall_eq_error h with heq | ⟨key, direction, -, -, heq⟩
    · cases heq
      exact ⟨hword, parts, hcall, (List.length_map _).symm⟩
    · cases heq
  invalidDirection := by
    rintro found place rfl
    obtain ⟨word, place', parts, hword, hcall, h⟩ := hclause trivial
    rcases Reader.clauseOfCall_eq_error h with heq | ⟨key, direction, hnone, harguments, heq⟩
    · cases heq
    · cases heq
      cases eq_order_of_ofWord? hword hnone
      obtain ⟨p, ps, rfl, -, hps⟩ := List.map_eq_cons_iff.1 harguments
      obtain ⟨q, qs, rfl, hq, hqs⟩ := List.map_eq_cons_iff.1 hps
      cases List.map_eq_nil_iff.1 hqs
      exact ⟨p, q, hcall, hq⟩

theorem ReadError.isFoundIn_of_run {α : Type} {x : Reader α}
    (hx : (keepingStep (.ofText text)).Meets x) (hstart : Reader.start text.toList = .ok s)
    (h : x s = .error e s₁) : e.IsFoundIn (.ofText text) := by
  have hrun := hx s
  rw [h] at hrun
  exact hrun ⟨[], ReaderState.follows_of_start hstart⟩

theorem ReadError.pointsInto_of_start {fault : LexError}
    (h : Reader.start text.toList = .error fault) : (lexical fault).PointsInto text front := by
  obtain ⟨stop, hnext⟩ := Reader.start_eq_error h
  exact pointsInto (congrArg Lexing.failure (Lexing.ofCursor_of_error hnext)) False.elim

theorem Directive.pointsInto_of_parse (h : Directive.parse text = .error e) :
    e.PointsInto text (· = []) := by
  unfold Directive.parse at h
  split at h
  next fault hstart =>
    cases h
    exact ReadError.pointsInto_of_start hstart
  next s hstart =>
    split at h
    next => cases h
    next e s' hrun =>
      cases h
      refine ReadError.pointsInto (ReadError.isFoundIn_of_run (.directive (keepingStep_isLawful _)
        (keepingStep_allowsClauses _)) hstart hrun) fun he => ?_
      obtain ⟨s₁, hitem⟩ := Reader.directive_eq_error_of_clause hrun he
      exact exists_callAt hstart (.nil s) rfl List.not_mem_nil hitem he

theorem Query.pointsInto_of_parse (h : Query.parse text = .error e) :
    e.PointsInto text Query.InFrontOfItem := by
  unfold Query.parse at h
  split at h
  next fault hstart =>
    cases h
    exact ReadError.pointsInto_of_start hstart
  next s hstart =>
    split at h
    next => cases h
    next e s' hrun =>
      cases h
      refine ReadError.pointsInto (ReadError.isFoundIn_of_run (.query (keepingStep_isLawful _)
        (keepingStep_allowsClauses _)) hstart hrun) fun he => ?_
      obtain ⟨ts, s₁, s₂, hpasses, hfront, hitem⟩ := Reader.query_eq_error_of_clause hrun he
      have hts : .endOfText ∉ ts := by
        obtain ⟨table, us, rfl, hus⟩ := hfront
        simp [hus.endOfText_notMem]
      exact exists_callAt hstart hpasses hfront hts hitem he

/-- Errors point at what they name, whether a text is read as a directive or as a query. -/
theorem errors_point_into_text :
    (Directive.parse text = .error e → e.PointsInto text (· = [])) ∧
      (Query.parse text = .error e → e.PointsInto text Query.InFrontOfItem) :=
  ⟨Directive.pointsInto_of_parse, Query.pointsInto_of_parse⟩

/-- The direction of an order is a number. The error stands at the word itself. -/
theorem Directive.namedDirection_fails : Directive.parse "order(a, b)" =
    .error (.invalidDirection (.column "b") .start) := by
  have hparse : (match Directive.parse "order(a, b)" with
      | .error (.invalidDirection found place) =>
        decide (found.equal (.column "b") = true ∧ place = .start)
      | _ => false) = true := by decide +kernel
  split at hparse
  next found place h =>
    obtain ⟨hequal, rfl⟩ := of_decide_eq_true hparse
    cases found with
    | column name =>
        obtain rfl : name = "b" := by simpa only [equal, beq_iff_eq] using hequal
        exact h
    | _ => cases hequal
  next => cases hparse

/-- Two arguments make no limit, and there is a fault behind it. -/
theorem Query.pairOfLimits_fails : Query.parse "t[a,limit(1,2)]@" =
    .error (.clauseArity "limit" 2 ⟨1, 5, 4⟩) := by
  have hparse : (match Query.parse "t[a,limit(1,2)]@" with
      | .error (.clauseArity clause count place) => decide (clause = "limit" ∧ count = 2 ∧
          place = ⟨1, 5, 4⟩)
      | _ => false) = true := by decide +kernel
  split at hparse
  next clause count place h =>
    obtain ⟨rfl, rfl, rfl⟩ := of_decide_eq_true hparse
    exact h
  next => cases hparse

theorem clauses_pointed_at :
    (∃ key direction, CallAt "order(a, b)" (· = []) "order" .start [key, direction] ∧
      direction.2 = .column "b") ∧
    "limit" ∈ clauseNames ∧ ∃ parts,
      CallAt "t[a,limit(1,2)]@" Query.InFrontOfItem "limit" ⟨1, 5, 4⟩ parts ∧ parts.length = 2 :=
  ⟨(errors_point_into_text.1 Directive.namedDirection_fails).invalidDirection rfl,
    (errors_point_into_text.2 Query.pairOfLimits_fails).clauseArity rfl⟩

end QueryNotation
