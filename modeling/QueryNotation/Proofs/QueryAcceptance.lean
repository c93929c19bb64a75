import QueryNotation.Proofs.ItemAcceptance
import QueryNotation.Proofs.TextTokens

/-!
# What whole texts are read as

The tokens of a text alone decide what it is read as. A text is accepted
exactly when its tokens are in the grammar and their cost is within the
nesting limit. Beyond the limit the limit is what the error names.
-/

namespace QueryNotation

open BinaryOperator

namespace Reader

variable {s s' : ReaderState} {ts : List Token} {ds : List Directive} {n : Nat}

/-! ## Lists of items -/

theorem possibleItem_of_empty (h : s.token = .symbol .closeBracket ∨ s.token = .symbol .comma) :
    possibleItem s = .ok [] s := by
  rw [possibleItem, get_bind]
  rcases h with h | h <;> rw [h] <;> rfl

theorem possibleItem_of_ne (hclose : s.token ≠ .symbol .closeBracket)
    (hcomma : s.token ≠ .symbol .comma) :
    possibleItem s = (item >>= fun d => pure [d]) s := by
  rw [possibleItem, get_bind]
  refine congrFun (?_ : _ = item >>= fun d => pure [d]) s
  split
  next h => exact (hclose h).elim
  next h => exact (hcomma h).elim
  next => rfl

theorem possibleItem_sound (h : possibleItem s = .ok ds s') :
    ∃ n ts, Passes s ts s' ∧ DerivesSlot n ts ds ∧ n ≤ maxDepth - s.depth := by
  by_cases hempty : s.token = .symbol .closeBracket ∨ s.token = .symbol .comma
  · rw [possibleItem_of_empty hempty] at h
    cases h
    exact ⟨0, [], .nil _, .empty, Nat.zero_le _⟩
  · rw [not_or] at hempty
    rw [possibleItem_of_ne hempty.1 hempty.2] at h
    obtain ⟨d, s₁, hitem, h⟩ := bind_eq_ok h
    obtain ⟨rfl, rfl⟩ := pure_eq_ok h
    obtain ⟨n, ts, hpass, hderives, hn⟩ := item_sound hitem
    exact ⟨n, ts, hpass, .item hderives, hn⟩

/-- Reads on after an item. -/
def itemsRest (left : List Char) (here : List Directive) : Reader (List Directive) := do
  if (← get).token = .symbol .comma then
    match left with
    | [] => fail (.token (.symbol .closeBracket))
    | _ :: left =>
      advance
      pure (here ++ (← items left))
  else
    pure here

theorem items_eq (left : List Char) : items left = possibleItem >>= itemsRest left := items.eq_def left

theorem itemsRest_of_ne {left : List Char} {here : List Directive} (h : s.token ≠ .symbol .comma) :
    itemsRest left here s = .ok here s := by
  rw [itemsRest.eq_def, get_bind, if_neg h]
  rfl

theorem itemsRest_nil {here : List Directive} (h : s.token = .symbol .comma) :
    itemsRest [] here s = fail (.token (.symbol .closeBracket)) s := by
  rw [itemsRest, get_bind, if_pos h]

theorem itemsRest_cons {c : Char} {left : List Char} {here : List Directive}
    (h : s.token = .symbol .comma) : itemsRest (c :: left) here s =
      (advance >>= fun _ => items left >>= fun rest => pure (here ++ rest)) s := by
  rw [itemsRest.eq_def, get_bind, if_pos h]

theorem items_eq_ok {left : List Char} (h : items left s = .ok ds s') :
    ∃ here s₁, possibleItem s = .ok here s₁ ∧ ((ds = here ∧ s' = s₁) ∨
      (s₁.token = .symbol .comma ∧ ∃ c left' s₂ rest, left = c :: left' ∧
        advance s₁ = .ok () s₂ ∧ items left' s₂ = .ok rest s' ∧ ds = here ++ rest)) := by
  obtain ⟨here, s₁, hhere, hrest⟩ := bind_eq_ok (items.eq_def _ ▸ h)
  refine ⟨here, s₁, hhere, ?_⟩
  rw [get_bind] at hrest
  by_cases hcomma : s₁.token = .symbol .comma
  · rw [if_pos hcomma] at hrest
    cases left with
    | nil => cases hrest
    | cons c left =>
        obtain ⟨_, s₂, hadvance, hrest⟩ := bind_eq_ok hrest
        obtain ⟨rest, s₃, hitems, hrest⟩ := bind_eq_ok hrest
        obtain ⟨rfl, rfl⟩ := pure_eq_ok hrest
        exact .inr ⟨hcomma, c, left, s₂, rest, rfl, hadvance, hitems, rfl⟩
  · rw [if_neg hcomma] at hrest
    obtain ⟨rfl, rfl⟩ := pure_eq_ok hrest
    exact .inl ⟨rfl, rfl⟩

theorem items_sound {left : List Char} (h : items left s = .ok ds s') :
    ∃ n ts, Passes s ts s' ∧ DerivesItems n ts ds ∧ n ≤ maxDepth - s.depth := by
  induction left generalizing s ds with
  | nil =>
      obtain ⟨here, s₁, hhere, ⟨rfl, rfl⟩ | ⟨-, _, _, _, _, hnil, -⟩⟩ := items_eq_ok h
      · obtain ⟨n, ts, hpass, hslot, hn⟩ := possibleItem_sound hhere
        exact ⟨n, ts, hpass, .last hslot, hn⟩
      · cases hnil
  | cons c left ih =>
      obtain ⟨here, s₁, hhere, hrest⟩ := items_eq_ok h
      obtain ⟨n, ts, hpass, hslot, hn⟩ := possibleItem_sound hhere
      rcases hrest with ⟨rfl, rfl⟩ | ⟨hcomma, _, _, s₂, rest, hleft, hadvance, hitems, rfl⟩
      · exact ⟨n, ts, hpass, .last hslot, hn⟩
      · cases hleft
        obtain ⟨m, us, hpass', hderives, hm⟩ := ih hitems
        have hdepth : s₂.depth = s.depth := by
          rw [(advance_eq_ok hadvance).2.2, hpass.depth_eq]
        refine ⟨max n m, _, hpass.append (.cons hadvance hpass'), hcomma ▸ .cons hslot hderives, ?_⟩
        omega

theorem follows_closeBracket : (Token.symbol .closeBracket).Follows loosest :=
  Token.follows_of_ofToken?_eq_none rfl (by simp)

theorem follows_comma : (Token.symbol .comma).Follows loosest :=
  Token.follows_of_ofToken?_eq_none rfl (by simp)

theorem follows_endOfText : Token.endOfText.Follows loosest :=
  Token.follows_of_ofToken?_eq_none rfl (by simp)

theorem item_startsOperand {d : Directive} (h : DerivesItem n ts d) (hpass : Passes s ts s') :
    s.token.StartsOperand := by
  cases h with
  | distinct | all => exact hpass.cons_inv.1 ▸ trivial
  | expression h =>
      obtain ⟨t, us, rfl, ht⟩ := h.startsOperand
      exact hpass.cons_inv.1 ▸ ht

theorem possibleItem_finds (h : DerivesSlot n ts ds) (hpass : Passes s ts s')
    (hend : s'.token = .symbol .closeBracket ∨ s'.token = .symbol .comma) :
    LeadsTo (maxDepth - s.depth) n (possibleItem s) (.ok ds s') := by
  cases h with
  | empty =>
      cases hpass
      rw [possibleItem_of_empty hend]
      exact .refl _ _
  | item hitem =>
      have hfollow : s'.token.Follows loosest := by
        rcases hend with h | h <;> rw [h]
        · exact follows_closeBracket
        · exact follows_comma
      have hstart := item_startsOperand hitem hpass
      rw [possibleItem_of_ne (hstart.ne_symbol (by simp)) (hstart.ne_symbol (by simp))]
      exact (item_finds hitem hpass hfollow).bind_ok rfl

theorem items_finds (h : DerivesItems n ts ds) {left : List Char} (hleft : ts.length ≤ left.length)
    (hpass : Passes s ts s') (hend : s'.token = .symbol .closeBracket) :
    LeadsTo (maxDepth - s.depth) n (items left s) (.ok ds s') := by
  induction h generalizing s left with
  | last hslot =>
      rw [items.eq_def]
      refine (possibleItem_finds hslot hpass (.inl hend)).bind_ok ?_
      rw [get_bind, if_neg (by simp [hend])]
      rfl
  | cons hslot h ih =>
      obtain ⟨s₁, hhere, hrest⟩ := hpass.append_inv
      obtain ⟨hcomma, s₂, hadvance, hitems⟩ := hrest.cons_inv
      have hdepth : s₂.depth = s.depth := by
        rw [(advance_eq_ok hadvance).2.2, hhere.depth_eq]
      rw [List.length_append, List.length_cons] at hleft
      obtain ⟨c, left, rfl⟩ := List.exists_cons_of_length_pos (l := left) (by omega)
      rw [List.length_cons] at hleft
      have hih := @ih _ left (by omega) hitems
      rw [hdepth] at hih
      rw [items.eq_def]
      refine (possibleItem_finds hslot hhere (.inr hcomma)).bind fun _ => ?_
      rw [get_bind, if_pos hcomma]
      dsimp only
      rw [bind_of_ok hadvance]
      exact hih.bind_ok rfl

/-! ## Queries -/

theorem expectWord_of_word {name : String} (h : s.token = .word name) :
    expectWord s = (take >>= fun _ => pure name) s := by
  rw [expectWord, get_bind, h]

theorem expectWord_eq_ok {name : String} (h : expectWord s = .ok name s') :
    s.token = .word name ∧ advance s = .ok () s' := by
  cases ht : s.token with
  | word word =>
      rw [expectWord_of_word ht] at h
      obtain ⟨_, s₁, htake, h⟩ := bind_eq_ok h
      obtain ⟨rfl, rfl⟩ := pure_eq_ok h
      exact ⟨rfl, take_eq_ok_iff.1 htake⟩
  | literal | symbol | endOfText =>
      rw [expectWord, get_bind, ht] at h
      cases h

theorem query_sound {q : Query} (h : query s = .ok q s') :
    ∃ n ts s₁, Passes s ts s₁ ∧ s₁.token = .endOfText ∧ DerivesQuery n ts q ∧
      n ≤ maxDepth - s.depth := by
  obtain ⟨table, s₁, htable, h⟩ := bind_eq_ok h
  rw [get_bind] at h
  obtain ⟨_, s₂, hopen, h⟩ := bind_eq_ok h
  obtain ⟨ds, s₃, hitems, h⟩ := bind_eq_ok h
  obtain ⟨_, s₄, hclose, h⟩ := bind_eq_ok h
  obtain ⟨_, s₅, hend, h⟩ := bind_eq_ok h
  obtain ⟨rfl, rfl⟩ := pure_eq_ok h
  obtain ⟨hword, hadvance⟩ := expectWord_eq_ok htable
  obtain ⟨hopen, hadvance₁⟩ := expect_eq_ok hopen
  obtain ⟨hclose, hadvance₃⟩ := expect_eq_ok hclose
  obtain ⟨hend, -⟩ := expect_eq_ok hend
  obtain ⟨n, ts, hpass, hderives, hn⟩ := items_sound hitems
  have hdepth : s₂.depth = s.depth := by
    rw [(advance_eq_ok hadvance₁).2.2, (advance_eq_ok hadvance).2.2]
  have hpassed : Passes s₂ (ts ++ [.symbol .closeBracket]) s₄ :=
    hpass.append (hclose ▸ .single hadvance₃)
  exact ⟨n, _, s₄, hword ▸ .cons hadvance (hopen ▸ .cons hadvance₁ hpassed), hend,
    .mk table hderives, hdepth ▸ hn⟩

theorem query_finds {q : Query} (h : DerivesQuery n ts q) (hts : .endOfText ∉ ts)
    (hpass : Passes s ts s') (hend : s'.AtEnd) :
    ∃ s₁, LeadsTo (maxDepth - s.depth) n (query s) (.ok q s₁) := by
  cases h with
  | @mk ts ds table hitems =>
      obtain ⟨hword, s₁, hadvance, hpass⟩ := hpass.cons_inv
      obtain ⟨hopen, s₂, hadvance₁, hpass₁⟩ := hpass.cons_inv
      obtain ⟨s₃, hpass₂, hrest⟩ := hpass₁.append_inv
      obtain ⟨hclose, s₄, hadvance₃, hnil⟩ := hrest.cons_inv
      cases hnil
      obtain ⟨s₅, hexpect⟩ := expect_end hend
      -- The bracket and every token after it take a character each.
      have hleft : ts.length ≤ s₁.cursor.ahead.length := by
        have hmem : Token.endOfText ∉ s₁.token :: ts := by simp_all
        have hle := (Passes.cons hadvance₁ hpass₂).length_le hmem (by simp [hclose])
        rw [List.length_cons] at hle
        omega
      have hdepth : s₂.depth = s.depth := by
        rw [(advance_eq_ok hadvance₁).2.2, (advance_eq_ok hadvance).2.2]
      have hfinds := items_finds hitems hleft hpass₂ hclose
      rw [hdepth] at hfinds
      have htable : expectWord s = .ok table s₁ := by
        rw [expectWord_of_word hword, bind_of_ok (take_eq_ok_iff.2 hadvance)]
        rfl
      refine ⟨s₅, ?_⟩
      rw [query, bind_of_ok htable, get_bind, bind_of_ok ((expect_of_eq hopen).trans hadvance₁)]
      refine hfinds.bind_ok ?_
      rw [bind_of_ok ((expect_of_eq hclose).trans hadvance₃), bind_of_ok hexpect]
      rfl

/-! ## Single items -/

theorem directive_sound {d : Directive} (h : directive s = .ok d s') :
    ∃ n ts s₁, Passes s ts s₁ ∧ s₁.token = .endOfText ∧ DerivesItem n ts d ∧
      n ≤ maxDepth - s.depth := by
  obtain ⟨result, s₁, hitem, h⟩ := bind_eq_ok h
  obtain ⟨_, s₂, hend, h⟩ := bind_eq_ok h
  obtain ⟨rfl, rfl⟩ := pure_eq_ok h
  obtain ⟨n, ts, hpass, hderives, hn⟩ := item_sound hitem
  exact ⟨n, ts, s₁, hpass, (expect_eq_ok hend).1, hderives, hn⟩

theorem directive_finds {d : Directive} (h : DerivesItem n ts d) (hpass : Passes s ts s')
    (hend : s'.AtEnd) : ∃ s₁, LeadsTo (maxDepth - s.depth) n (directive s) (.ok d s₁) := by
  obtain ⟨s₁, hexpect⟩ := expect_end hend
  refine ⟨s₁, (item_finds h hpass (hend.1 ▸ follows_endOfText)).bind_ok ?_⟩
  rw [bind_of_ok hexpect]
  rfl

end Reader

/-! ## Texts -/

theorem DerivesItem.endOfText_notMem {n : Nat} {ts : List Token} {d : Directive}
    (h : DerivesItem n ts d) : .endOfText ∉ ts := by
  cases h with
  | distinct | all => simp
  | expression h => exact h.endOfText_notMem

theorem DerivesItems.endOfText_notMem {n : Nat} {ts : List Token} {ds : List Directive}
    (h : DerivesItems n ts ds) : .endOfText ∉ ts := by
  have hslot {n : Nat} {ts : List Token} {ds : List Directive} (h : DerivesSlot n ts ds) :
      .endOfText ∉ ts := by
    cases h with
    | empty => simp
    | item h => exact h.endOfText_notMem
  induction h with
  | last h => exact hslot h
  | cons hhere h ih => simp [hslot hhere, ih]

theorem DerivesQuery.endOfText_notMem {n : Nat} {ts : List Token} {q : Query}
    (h : DerivesQuery n ts q) : .endOfText ∉ ts := by
  cases h with
  | mk table h => simp [h.endOfText_notMem]

open Reader

theorem Directive.parse_eq_ok {text : String} {d : Directive} (h : parse text = .ok d) :
    ∃ ts n, HasTokens text ts ∧ DerivesItem n ts d ∧ n ≤ maxDepth := by
  unfold parse at h
  split at h
  next => cases h
  next s hstart =>
    split at h
    next e s' hdirective =>
      cases h
      obtain ⟨n, ts, s₁, hpass, hend, hderives, hn⟩ := directive_sound hdirective
      have hlexes := lexes_of_passes (start_eq_ok hstart).1 hpass hend hderives.endOfText_notMem
      exact ⟨ts, n, hasTokens_iff_lexes.2 hlexes, hderives, by omega⟩
    next => cases h

theorem Query.parse_eq_ok {text : String} {q : Query} (h : parse text = .ok q) :
    ∃ ts n, HasTokens text ts ∧ DerivesQuery n ts q ∧ n ≤ maxDepth := by
  unfold parse at h
  split at h
  next => cases h
  next s hstart =>
    split at h
    next e s' hquery =>
      cases h
      obtain ⟨n, ts, s₁, hpass, hend, hderives, hn⟩ := query_sound hquery
      have hlexes := lexes_of_passes (start_eq_ok hstart).1 hpass hend hderives.endOfText_notMem
      exact ⟨ts, n, hasTokens_iff_lexes.2 hlexes, hderives, by omega⟩
    next => cases h

/-- What reading the tokens of an item comes to. -/
theorem Directive.parse_of_derives {text : String} {ts : List Token} {n : Nat} {d : Directive}
    (htext : HasTokens text ts) (h : DerivesItem n ts d) :
    (n ≤ maxDepth → parse text = .ok d) ∧
      (maxDepth < n → ∃ place, parse text = .error (.tooDeep place)) := by
  obtain ⟨s, s', hstart, hpass, hend, -⟩ := hasTokens_iff_passes.1 htext
  obtain ⟨s₁, hfinds⟩ := directive_finds h hpass hend
  rw [(start_eq_ok hstart).2, Nat.sub_zero] at hfinds
  constructor
  · intro hn
    rw [parse, hstart]
    dsimp only
    rw [hfinds.1 hn]
  · intro hn
    obtain ⟨place, s₂, hs₂⟩ := hfinds.2 hn
    refine ⟨place, ?_⟩
    rw [parse, hstart]
    dsimp only
    rw [hs₂]

/-- What reading the tokens of a query comes to. -/
theorem Query.parse_of_derives {text : String} {ts : List Token} {n : Nat} {q : Query}
    (htext : HasTokens text ts) (h : DerivesQuery n ts q) :
    (n ≤ maxDepth → parse text = .ok q) ∧
      (maxDepth < n → ∃ place, parse text = .error (.tooDeep place)) := by
  obtain ⟨s, s', hstart, hpass, hend, hts⟩ := hasTokens_iff_passes.1 htext
  obtain ⟨s₁, hfinds⟩ := query_finds h hts hpass hend
  rw [(start_eq_ok hstart).2, Nat.sub_zero] at hfinds
  constructor
  · intro hn
    rw [parse, hstart]
    dsimp only
    rw [hfinds.1 hn]
  · intro hn
    obtain ⟨place, s₂, hs₂⟩ := hfinds.2 hn
    refine ⟨place, ?_⟩
    rw [parse, hstart]
    dsimp only
    rw [hs₂]

end QueryNotation
