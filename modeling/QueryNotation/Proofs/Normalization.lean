import QueryNotation.Proofs.Acceptance
import QueryNotation.Proofs.AcceptedItems
import QueryNotation.Proofs.NotationRoundTrip
import QueryNotation.Proofs.StatementQuotes

/-!
# Reading back an accepted text

An accepted text without strings and markers is normalized by printing its
query. The notation always fits within the nesting limit, since no tree
gets costlier. But a number that is too large for binary64 is read as
infinite, and its text is that of a column. As a direction it is refused.
As a constant it gets quotes in the statement, and can be seen there if
the statement shows it.
-/

namespace QueryNotation

open BinaryOperator Number

/-! ## What an accepted list of items is made of -/

namespace Reader

variable {s s₁ s₂ : ReaderState} {us : List Token} {n : Nat}

/-- An expression in a place for an item stands for an item. -/
theorem readAs_of_derivesSlot {d e : Directive} {rs : List Directive} (hwritten : IsWrittenAs d e)
    (h : DerivesSlot n us rs) (hpass₁ : Passes s e.tokens s₁) (hpass₂ : Passes s us s₂)
    (hend₁ : EndsSlot s₁.token) (hend₂ : EndsSlot s₂.token) : s₁ = s₂ ∧ ∃ r, ReadAs e r := by
  have hhead : e.tokens.head? = some s.token := hpass₁.head? hwritten.derives.ne_nil
  cases h with
  | empty =>
      cases hpass₂
      obtain ⟨t, ts, hts, ht⟩ := hwritten.derives.startsOperand
      rw [hts, List.head?_cons, Option.some.injEq] at hhead
      exact (hend₂.not_startsOperand (hhead ▸ ht)).elim
  | item h =>
      cases h with
      | distinct => exact (hwritten.head "distinct" (by simp) (hpass₂.cons_inv.1 ▸ hhead)).elim
      | all => exact (hwritten.head "all" (by simp) (hpass₂.cons_inv.1 ▸ hhead)).elim
      | expression h _ _ hread =>
          obtain ⟨rfl, rfl⟩ := derives_unique hwritten.derives h hpass₁ hpass₂ hend₁.follows hend₂.follows
          exact ⟨rfl, _, hread⟩

/-- Expressions with commas between them are accepted one by one. -/
theorem readAs_of_derivesItems {ds rs : List Directive} {spelled : Directive → Directive}
    (hwritten : ∀ d ∈ ds, IsWrittenAs d (spelled d)) (h : DerivesItems n us rs)
    (hpass₁ : Passes s ([.symbol .comma].intercalate (ds.map fun d => (spelled d).tokens)) s₁)
    (hpass₂ : Passes s us s₂) (hend₁ : s₁.token = .symbol .closeBracket)
    (hend₂ : s₂.token = .symbol .closeBracket) : ∀ d ∈ ds, ∃ r, ReadAs (spelled d) r := by
  have hends {s₃ s₄ : ReaderState} (h : s₃ = s₄) (h₃ : s₃.token = .symbol .closeBracket)
      (h₄ : s₄.token = .symbol .comma) : False := by
    rw [h, h₄] at h₃
    cases h₃
  induction ds generalizing s us n rs with
  | nil => simp
  | cons d ds ih =>
      obtain ⟨hd, hds⟩ := List.forall_mem_cons.1 hwritten
      rw [List.forall_mem_cons]
      cases ds with
      | nil =>
          rw [List.map_singleton, List.intercalate_singleton] at hpass₁
          refine ⟨?_, by simp⟩
          cases h with
          | last hslot =>
              exact (readAs_of_derivesSlot hd hslot hpass₁ hpass₂ (.inl hend₁) (.inl hend₂)).2
          | cons hslot h =>
              obtain ⟨s₃, hhere, hrest⟩ := hpass₂.append_inv
              have hcomma := hrest.cons_inv.1
              have hplace := readAs_of_derivesSlot hd hslot hpass₁ hhere (.inl hend₁) (.inr hcomma)
              exact (hends hplace.1 hend₁ hcomma).elim
      | cons d' ds =>
          simp only [List.map_cons, List.intercalate_cons_cons] at hpass₁
          rw [List.append_assoc] at hpass₁
          obtain ⟨s₃, hhere, hrest⟩ := hpass₁.append_inv
          obtain ⟨hcomma, s₄, hadvance, hpass₁⟩ := hrest.cons_inv
          cases h with
          | last hslot =>
              have hplace := readAs_of_derivesSlot hd hslot hhere hpass₂ (.inr hcomma) (.inl hend₂)
              exact (hends hplace.1.symm hend₂ hcomma).elim
          | cons hslot h =>
              obtain ⟨s₅, hhere₂, hrest₂⟩ := hpass₂.append_inv
              obtain ⟨hcomma₂, s₆, hadvance₂, hpass₂⟩ := hrest₂.cons_inv
              obtain ⟨rfl, hread⟩ :=
                readAs_of_derivesSlot hd hslot hhere hhere₂ (.inr hcomma) (.inr hcomma₂)
              rw [hadvance] at hadvance₂
              cases hadvance₂
              exact ⟨hread, ih hds h hpass₁ hpass₂⟩

end Reader

/-- If the notation of a query is accepted, then so is every item in it. -/
theorem Query.readAs_of_parse {q r : Query} {spelled : Directive → Directive}
    (htable : HasTokens q.table [.word q.table])
    (hwritten : ∀ d ∈ q.directives, IsWrittenAs d (spelled d))
    (h : parse (q.text .compact) = .ok r) : ∀ d ∈ q.directives, ∃ e, ReadAs (spelled d) e := by
  have hspells : ∀ d ∈ q.directives, Spells Delimits (d.render .compact) (spelled d).tokens :=
    fun d hd => (hwritten d hd).spells
  obtain ⟨n, rs, hitems⟩ := derivesItems_of_parse htable hspells h
  obtain ⟨s, s', -, hpass, -, -⟩ := Reader.hasTokens_iff_passes.1 (hasTokens_query htable hspells)
  obtain ⟨-, s₁, -, hpass⟩ := hpass.cons_inv
  obtain ⟨-, s₂, -, hpass⟩ := hpass.cons_inv
  obtain ⟨s₃, hpass, hrest⟩ := hpass.append_inv
  have hclose := hrest.cons_inv.1
  exact Reader.readAs_of_derivesItems hwritten hitems hpass hpass hclose hclose

/-! ## Numbers that are not finite -/

theorem Directive.Worded.isPlain {d : Directive} (h : d.Worded Value.IsUnquoted)
    (hfinite : d.infinities = 0) : d.Worded Value.IsPlain := by
  induction h with
  | column hword hname => exact .column hword hname
  | @constant v h =>
      rw [infinities] at hfinite
      by_cases hv : v.IsFinite
      · exact .constant ⟨h, hv⟩
      · rw [if_neg hv] at hfinite
        cases hfinite
  | @call name arguments hword hname h ih =>
      rw [infinities, infinitiesAll_eq_zero_iff] at hfinite
      refine .call hword hname ?_
      intro d hd
      exact ih d hd (hfinite d hd)
  | group h ih => exact .group (ih (infinities.eq_def _ ▸ hfinite))
  | unary op h ih => exact .unary op (ih (infinities.eq_def _ ▸ hfinite))
  | binary op ha hb iha ihb =>
      rw [infinities, Nat.add_eq_zero_iff] at hfinite
      exact .binary op (iha hfinite.1) (ihb hfinite.2)

theorem Directive.IsWritable.isPlain {d : Directive} (h : d.IsWritable Value.IsUnquoted)
    (hfinite : d.infinities = 0)
    (hdirection : ∀ key x, d = .order key x → (Value.float x).IsFinite) :
    d.IsWritable Value.IsPlain := by
  cases h with
  | expression h hleft hclause => exact .expression (h.isPlain hfinite) hleft hclause
  | clause c h =>
      rw [infinities] at hfinite
      exact .clause c (h.isPlain hfinite)
  | order h _ =>
      rw [infinities] at hfinite
      exact .order (h.isPlain hfinite) ⟨trivial, hdirection _ _ rfl⟩

theorem not_signedNumber_reread {x y : Binary64} (hx : ¬ (Value.float x).IsFinite) :
    ¬ SignedNumber (Value.float x).reread y := by
  have hcolumn {name : String} {y : Binary64} : ¬ SignedNumber (.column name) y := by
    intro h
    cases h
  cases x with
  | finite negative rank => exact (hx trivial).elim
  | infinity negative =>
      cases negative with
      | false => exact hcolumn
      | true =>
          intro h
          cases h with
          | minus h => exact hcolumn h
  | nan => exact hcolumn

/-- A sort key whose direction is not finite is refused when it is read
again. -/
theorem not_readAs_spelled {key r : Directive} {x : Binary64} (hx : ¬ (Value.float x).IsFinite) :
    ¬ ReadAs (Directive.order key x).spelled r := by
  have hone : ¬ x.equal .one = true := by
    intro h
    rw [eq_one_of_equal h, one_eq_finite] at hx
    exact hx trivial
  rw [Directive.spelled, if_neg hone]
  generalize he : Directive.call "order" [key.reread.regroup, (Value.float x).reread] = e
  intro h
  cases h with
  | clause c inner =>
      rw [Directive.call.injEq] at he
      cases he.2
  | order key => cases he
  | directed key h =>
      cases he
      exact not_signedNumber_reread hx h
  | other h =>
      subst he
      exact h ⟨by decide, List.cons_ne_nil _ _⟩

namespace Query

variable {q r : Query}

theorem isFinite_of_parse (htable : HasTokens q.table [.word q.table])
    (hitems : ∀ d ∈ q.directives, d.IsWritable Value.IsUnquoted)
    (h : parse (q.text .compact) = .ok r) :
    ∀ key x, .order key x ∈ q.directives → (Value.float x).IsFinite := by
  intro key x hd
  apply Decidable.byContradiction
  intro hx
  obtain ⟨e, hread⟩ := readAs_of_parse htable (fun d hd => (hitems d hd).isWrittenAs) h _ hd
  exact not_readAs_spelled hx hread

theorem quotes_normal (hq : q.Built) (hitems : ∀ d ∈ q.directives, d.IsWritable Value.IsUnquoted) :
    quotes (q.normal.render .relational) =
      quotes (q.render .relational) + 2 * Directive.infinitiesAll q.shown := by
  have harranged : q.normal.arranged = q.arranged :=
    arranged_eq_of_role hq q.built_normal q.directives_normal fun d hd => (hitems d hd).role_normal
  have hshown : quotes (q.shown.map fun d => d.normal.render .relational).flatten =
      quotes (q.shown.map (Directive.render .relational)).flatten +
        2 * Directive.infinitiesAll q.shown := by
    apply quotes_flatten_grow
    intro d hd
    exact (hitems d (mem_directives_of_mem_shown hd)).quotes_normal
  rw [render, render, Select.quotes_statement, Select.quotes_statement, harranged,
    log_eq_map q.directives_normal, Select.shown_map, table_normal, List.map_map, Nat.add_assoc]
  exact congrArg _ hshown

/-- The statement is kept exactly if the constants that it shows are finite. -/
theorem text_relational_normal_iff (hq : q.Built)
    (hitems : ∀ d ∈ q.directives, d.IsWritable Value.IsUnquoted)
    (hfinite : ∀ key x, .order key x ∈ q.directives → (Value.float x).IsFinite) :
    q.normal.text .relational = q.text .relational ↔ ∀ d ∈ q.shown, d.infinities = 0 := by
  constructor
  · intro h
    have hrender := congrArg String.toList h
    rw [text, text, String.toList_ofList, String.toList_ofList] at hrender
    have hquotes := quotes_normal hq hitems
    rw [hrender] at hquotes
    have hnone : Directive.infinitiesAll q.shown = 0 := by omega
    exact Directive.infinitiesAll_eq_zero_iff.1 hnone
  · intro h
    apply text_relational_normal hq hitems
    intro d hd
    have hmem := mem_directives_of_mem_shown hd
    exact (hitems d hmem).isPlain (h d hd) fun key x hx => hfinite key x (hx ▸ hmem)

end Query

/-! ## Queries with one sort key -/

/-- A query with one sort key. -/
def sortedQuery (x : Binary64) : Query := (Query.new "t").appendAll [.order (.column "x") x]

theorem directives_sortedQuery (x : Binary64) :
    (sortedQuery x).directives = [.order (.column "x") x] := Query.directives_appendAll _ _

/-- The tokens of such a query. -/
def sortedTokens (direction : List Token) : List Token :=
  .word "t" :: .symbol .openBracket :: (.word "order" :: .symbol .openParen ::
    (.word "x" :: .symbol .comma :: direction ++ [.symbol .closeParen]) ++ [.symbol .closeBracket])

theorem derivesQuery_sorted {direction : List Token} {d : Directive} {x : Binary64}
    (h : Derives 0 direction d) (hx : SignedNumber d x) :
    DerivesQuery (1 + d.cost) (sortedTokens direction) (sortedQuery x) := by
  have hcall := Derives.call "order" _ (.cons ([.word "x"], .column "x") (.last (direction, d)))
    (by simpa using ⟨(Derives.column "x").mono (Nat.zero_le _), h.mono (Nat.zero_le _)⟩)
  have hitem := DerivesItem.expression (hcall.mono (Nat.zero_le _)) (by simp) (by simp)
    (.directed (.column "x") hx)
  have hquery := DerivesQuery.mk "t" (.last (.item hitem))
  simpa [sortedTokens, sortedQuery, Directive.cost, Directive.largestCost] using hquery

theorem parse_descending : Query.parse (String.ofList "t[order(x,-2)]".toList) =
      .ok (sortedQuery (-(Binary64.ofInt 2))) ∧
    HasTokens (String.ofList "t[order(x,-2)]".toList)
      (sortedTokens [.symbol .minus, .literal (.integer 2)]) := by
  have htext : HasTokens (String.ofList "t[order(x,-2)]".toList)
      (sortedTokens [.symbol .minus, .literal (.integer 2)]) := by
    rw [hasTokens_iff_lexes, String.toList_ofList]
    exact lexes_of_atMost (n := 12) (by decide +kernel) (by decide +kernel)
  have hminus : UnaryOperator.ofToken? (.symbol .minus) = some .negative := rfl
  have hderives := derivesQuery_sorted (.unary hminus (.literal (.integer 2))) (.minus (.number rfl))
  exact ⟨(Query.parse_of_derives htext hderives).1 (by decide +kernel), htext⟩

/-- 310 digits are too many for a binary64 number. -/
theorem parse_hugeDirection : Query.parse (String.ofList
      ("t[order(x,".toList ++ List.replicate 310 '1' ++ [')', ']'])) =
        .ok (sortedQuery (.infinity false)) := by
  have htext : HasTokens (String.ofList
      ("t[order(x,".toList ++ List.replicate 310 '1' ++ [')', ']']))
        (sortedTokens [.literal (.float (.infinity false))]) := by
    rw [hasTokens_iff_lexes, String.toList_ofList]
    exact lexes_of_atMost (n := 12) (by decide +kernel) (by decide +kernel)
  have hderives := derivesQuery_sorted (.literal (.float (.infinity false))) (.number rfl)
  exact (Query.parse_of_derives htext hderives).1 (by decide +kernel)

/-! ## Normalizing -/

/-- The notation of an accepted text without strings and markers is accepted
with the same length, notation and statement exactly if its directions are
finite, and the constants that its statement shows. It is accepted at all
exactly if the directions are finite, and has the same length and notation
whenever it is accepted. -/
theorem reread_alike_iff_finite {text : String} {ts : List Token} {q : Query}
    (hq : Query.parse text = .ok q) (htext : HasTokens text ts)
    (hstrings : ∀ s, Token.literal (.string s) ∉ ts)
    (hmarkers : .distinct ∉ q.directives ∧ .all ∉ q.directives) :
    ((∃ r, Query.parse (q.text .compact) = .ok r ∧ r.directives.length = q.directives.length ∧
        r.text .compact = q.text .compact ∧ r.text .relational = q.text .relational) ↔
      (∀ key x, .order key x ∈ q.directives → (Value.float x).IsFinite) ∧
        ∀ d ∈ q.shown, d.infinities = 0) ∧
    ((∃ r, Query.parse (q.text .compact) = .ok r) ↔
      ∀ key x, .order key x ∈ q.directives → (Value.float x).IsFinite) ∧
    ∀ r, Query.parse (q.text .compact) = .ok r →
      r.directives.length = q.directives.length ∧ r.text .compact = q.text .compact := by
  obtain ⟨us, n, husText, hderives, hn⟩ := Query.parse_eq_ok hq
  obtain rfl := husText.unique htext
  obtain ⟨hbuilt, htable, hitems⟩ := htext.isWritable hderives hstrings hmarkers
  have hwritable : ∀ d ∈ q.directives, d.IsWritable Value.IsUnquoted := fun d hd => (hitems d hd).1
  have hcost : Directive.largestCost (q.directives.map Directive.spelled) ≤ maxDepth := by
    rw [Directive.largestCost_le_iff]
    intro e he
    obtain ⟨d, hd, rfl⟩ := List.mem_map.1 he
    exact Nat.le_trans (hitems d hd).2 hn
  have hlength : q.normal.directives.length = q.directives.length := by
    rw [q.directives_normal, List.length_map]
  have hnormal {r : Query} (h : Query.parse (q.text .compact) = .ok r) :
      (∀ key x, .order key x ∈ q.directives → (Value.float x).IsFinite) ∧ r = q.normal := by
    have hfinite := Query.isFinite_of_parse htable hwritable h
    rw [(Query.parse_text htable hwritable hfinite).1 hcost] at h
    cases h
    exact ⟨hfinite, rfl⟩
  refine ⟨⟨?_, ?_⟩, ⟨?_, ?_⟩, ?_⟩
  · rintro ⟨r, h, -, -, hstatement⟩
    obtain ⟨hfinite, rfl⟩ := hnormal h
    exact ⟨hfinite, (Query.text_relational_normal_iff hbuilt hwritable hfinite).1 hstatement⟩
  · rintro ⟨hfinite, hshown⟩
    have hstatement := (Query.text_relational_normal_iff hbuilt hwritable hfinite).2 hshown
    exact ⟨q.normal, (Query.parse_text htable hwritable hfinite).1 hcost, hlength,
      Query.text_compact_normal hwritable, hstatement⟩
  · rintro ⟨r, h⟩
    exact (hnormal h).1
  · intro hfinite
    exact ⟨q.normal, (Query.parse_text htable hwritable hfinite).1 hcost⟩
  · intro r h
    obtain ⟨-, rfl⟩ := hnormal h
    exact ⟨hlength, Query.text_compact_normal hwritable⟩

theorem descending_reread_alike :
    (Query.parse (String.ofList "t[order(x,-2)]".toList) =
        .ok (sortedQuery (-(Binary64.ofInt 2))) ∧
      HasTokens (String.ofList "t[order(x,-2)]".toList)
        (sortedTokens [.symbol .minus, .literal (.integer 2)]) ∧
      (∀ s, Token.literal (.string s) ∉ sortedTokens [.symbol .minus, .literal (.integer 2)]) ∧
      .distinct ∉ (sortedQuery (-(Binary64.ofInt 2))).directives ∧
      .all ∉ (sortedQuery (-(Binary64.ofInt 2))).directives) ∧
    ∃ r, Query.parse ((sortedQuery (-(Binary64.ofInt 2))).text .compact) = .ok r ∧
      r.directives.length = (sortedQuery (-(Binary64.ofInt 2))).directives.length ∧
      r.text .compact = (sortedQuery (-(Binary64.ofInt 2))).text .compact ∧
      r.text .relational = (sortedQuery (-(Binary64.ofInt 2))).text .relational := by
  have hstrings : ∀ s, Token.literal (.string s) ∉
      sortedTokens [.symbol .minus, .literal (.integer 2)] := by simp [sortedTokens]
  have hmarkers : .distinct ∉ (sortedQuery (-(Binary64.ofInt 2))).directives ∧
      .all ∉ (sortedQuery (-(Binary64.ofInt 2))).directives := by
    rw [directives_sortedQuery]
    simp
  have hreread := reread_alike_iff_finite parse_descending.1 parse_descending.2 hstrings hmarkers
  refine ⟨⟨parse_descending.1, parse_descending.2, hstrings, hmarkers⟩, hreread.1.2 ⟨?_, ?_⟩⟩
  · intro key x hd
    rw [directives_sortedQuery, List.mem_singleton, Directive.order.injEq] at hd
    rw [hd.2]
    decide +kernel
  · intro d hd
    have hmem := Query.mem_directives_of_mem_shown hd
    rw [directives_sortedQuery, List.mem_singleton] at hmem
    rw [hmem]
    rfl

/-- 310 digits are accepted as a direction, and the notation of the query is
not accepted. -/
theorem hugeDirection_not_reread :
    ∃ q, Query.parse (String.ofList
        ("t[order(x,".toList ++ List.replicate 310 '1' ++ [')', ']'])) = .ok q ∧
      ¬ ∃ r, Query.parse (q.text .compact) = .ok r := by
  refine ⟨_, parse_hugeDirection, ?_⟩
  have htable : HasTokens (sortedQuery (.infinity false)).table
      [.word (sortedQuery (.infinity false)).table] :=
    hasTokens_word_iff.2 ⟨isWord_of_all "t" (by decide +kernel), by decide⟩
  have hitems : ∀ d ∈ (sortedQuery (.infinity false)).directives,
      d.IsWritable Value.IsUnquoted := by
    intro d hd
    rw [directives_sortedQuery, List.mem_singleton] at hd
    rw [hd]
    exact .order (.column (isWord_of_all "x" (by decide +kernel)) (by decide)) trivial
  rintro ⟨r, h⟩
  apply Query.isFinite_of_parse htable hitems h (.column "x") (.infinity false)
  rw [directives_sortedQuery]
  exact List.mem_singleton.2 rfl

end QueryNotation
