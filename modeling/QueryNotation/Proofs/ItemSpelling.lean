import QueryNotation.Proofs.LexedTokens
import QueryNotation.Proofs.Rereading
import QueryNotation.Proofs.StatementParts

/-!
# The notation of items and queries

An item is written as an expression is, with the word of a clause as the
name of a call. Its notation is read as an expression, and the grammar
makes an item of that. Only a direction that is not finite is no number
when it is read, so that such a sort key is no item again.
-/

namespace QueryNotation

open BinaryOperator Number Text

/-! ## Items -/

namespace Directive

/-- The expression that the notation of an item is read as. -/
def spelled : Directive → Directive
  | clause c inner => call c.word [inner.reread.regroup]
  | order key direction =>
    call "order" (key.reread.regroup ::
      if direction.equal .one then [] else [(Value.float direction).reread])
  | d => d.reread.regroup

/-- The item that the notation of an item is read as. -/
def normal : Directive → Directive
  | clause c inner => clause c inner.reread.regroup
  | order key direction => order key.reread.regroup direction
  | d => d.reread.regroup

/-- The name of the leftmost operand, if it is a column or a call. -/
def leftmostName? : Directive → Option String
  | column name | call name _ => some name
  | binary _ left _ => left.leftmostName?
  | _ => none

/-- An expression that is not taken for anything else as an item, or a
clause around an expression. The constants have a property. -/
inductive IsWritable (property : Value → Prop) : Directive → Prop where
  | expression {d : Directive} (h : d.Worded property)
      (hleft : ∀ name, d.leftmostName? = some name → name ∉ ["distinct", "all"])
      (hclause : ¬ d.IsClauseCall) : IsWritable property d
  | clause (c : Clause) {d : Directive} (h : d.Worded property) :
      IsWritable property (.clause c d)
  | order {key : Directive} {direction : Binary64} (h : key.Worded property)
      (hdirection : property (.float direction)) : IsWritable property (.order key direction)

theorem Worded.tokens_ne_nil {property : Value → Prop} {d : Directive} (h : d.Worded property) :
    d.tokens ≠ [] := by
  cases h <;> rw [tokens] <;> simp

theorem Worded.normal_eq {property : Value → Prop} {d : Directive} (h : d.Worded property) :
    d.normal = d.reread.regroup := by
  cases h <;> rfl

theorem Worded.spelled_eq {property : Value → Prop} {d : Directive} (h : d.Worded property) :
    d.spelled = d.reread.regroup := by
  cases h <;> rfl

/-- Only a leftmost operand gives a first token that is a word. -/
theorem Worded.leftmostName?_of_head? {property : Value → Prop} {d : Directive} {name : String}
    (h : d.Worded property) (hhead : d.tokens.head? = some (.word name)) :
    d.leftmostName? = some name := by
  induction h with
  | column hword hname =>
      rw [tokens, List.head?_cons, Option.some.injEq] at hhead
      rcases Token.ofWord_column hname with hw | ⟨-, hw⟩ | ⟨-, hw⟩ <;> rw [hw] at hhead <;>
        cases hhead
      rfl
  | call hword hname h ih =>
      rw [tokens, List.head?_cons] at hhead
      cases hhead
      rfl
  | binary op ha hb iha ihb =>
      obtain ⟨t, ts, hts⟩ := List.exists_cons_of_ne_nil ha.tokens_ne_nil
      rw [tokens, hts] at hhead
      rw [hts] at iha
      exact iha hhead
  | constant h =>
      rw [tokens] at hhead
      cases hhead
  | group h ih =>
      rw [tokens] at hhead
      cases hhead
  | unary op h ih =>
      rw [tokens] at hhead
      cases hhead

/-- Only a number that is not finite gives a new name. -/
theorem leftmostName?_reread {d : Directive} {name : String}
    (hname : d.reread.leftmostName? = some name) :
    d.leftmostName? = some name ∨ name ∈ ["inf", "NaN"] := by
  induction d using leftmostName?.induct with
  | case1 column => exact .inl hname
  | case2 call arguments => exact .inl hname
  | case3 op left right ih =>
      rw [reread] at hname
      exact ih hname
  | case4 d hcolumn hcall hbinary =>
      cases d with
      | constant v =>
          have hsigned {negative : Bool} {value : Value} :
              (signed negative (constant value)).leftmostName? = none := by cases negative <;> rfl
          rw [reread] at hname
          cases v with
          | float x =>
              cases x with
              | finite negative rank => cases hsigned.symm.trans hname
              | infinity negative =>
                  cases negative <;> cases hname
                  exact .inr (by simp)
              | nan =>
                  cases hname
                  exact .inr (by simp)
          | integer n => cases hsigned.symm.trans hname
          | decimal d => cases hsigned.symm.trans hname
          | string | boolean => cases hname
      | column name' => exact (hcolumn _ rfl).elim
      | call name' arguments => exact (hcall _ _ rfl).elim
      | binary op a b => exact (hbinary _ _ _ rfl).elim
      | _ => cases hname

end Directive

/-- The notation of one directive is read as the expression, and this is not
taken for a marker. -/
structure IsWrittenAs (d e : Directive) : Prop where
  spells : Spells Delimits (d.render .compact) e.tokens
  legible : e.IsLegible
  fits : Fits loosest e
  head : ∀ name ∈ ["distinct", "all"], e.tokens.head? ≠ some (.word name)

theorem IsWrittenAs.derives {d e : Directive} (h : IsWrittenAs d e) :
    Derives loosest e.tokens e := derives_tokens h.fits h.legible

theorem IsWrittenAs.derivesItem {d e r : Directive} (h : IsWrittenAs d e) (hread : ReadAs e r) :
    DerivesItem e.cost e.tokens r :=
  .expression h.derives (h.head _ (by simp)) (h.head _ (by simp)) hread

theorem isWord_clauseWord (c : Clause) : IsWord c.word ∧ c.word ∉ ["true", "false", "and", "or"] := by
  cases c <;> exact ⟨isWord_of_all _ (by decide), by decide⟩

theorem isWord_order : IsWord "order" ∧ "order" ∉ ["true", "false", "and", "or"] :=
  ⟨isWord_of_all _ (by decide), by decide⟩

theorem head_call_ne_marker {word name : String} {arguments : List Directive}
    (hword : word ∈ clauseNames) (hname : name ∈ ["distinct", "all"]) :
    (Directive.call word arguments).tokens.head? ≠ some (.word name) := by
  have hdisjoint : ∀ word ∈ clauseNames, word ∉ ["distinct", "all"] := by decide
  rw [Directive.tokens, List.head?_cons]
  intro h
  cases h
  exact hdisjoint word hword hname

section

variable {d key : Directive}

theorem isLegible_normal (h : d.Worded Value.IsUnquoted) : d.reread.regroup.IsLegible :=
  (h.reread fun _ hv => hv).regroup

theorem fits_normal (h : d.Worded Value.IsUnquoted) : Fits loosest d.reread.regroup :=
  fits_regroup (h.reread fun _ hv => hv).isExpression

theorem render_normal {property : Value → Prop} (h : d.Worded property) {language : Language}
    (hunquoted : ∀ v, property v → v.IsUnquoted)
    (hproperty : ∀ v, property v → v.reread.render language = v.text) :
    d.reread.regroup.render language = d.render language := by
  rw [(isSequential_render language).regroup (h.reread hunquoted).isExpression]
  exact h.render_reread hproperty

theorem render_normal_compact (h : d.Worded Value.IsUnquoted) :
    d.reread.regroup.render .compact = d.render .compact :=
  render_normal h (fun _ hv => hv) fun v _ => render_reread_compact v

theorem isWrittenAs_expression (h : d.Worded Value.IsUnquoted)
    (hleft : ∀ name, d.leftmostName? = some name → name ∉ ["distinct", "all"]) :
    IsWrittenAs d d.reread.regroup where
  spells := render_normal_compact h ▸ spells_render (isLegible_normal h)
  legible := isLegible_normal h
  fits := fits_normal h
  head := by
    intro name hname hhead
    have hreread := h.reread fun _ hv => hv
    rw [isSequential_tokens.regroup hreread.isExpression] at hhead
    rcases Directive.leftmostName?_reread (hreread.leftmostName?_of_head? hhead) with hfirst | hfirst
    · exact hleft name hfirst hname
    · have hdisjoint : ∀ name ∈ ["distinct", "all"], name ∉ ["inf", "NaN"] := by decide
      exact hdisjoint name hname hfirst

/-- A clause, or a sort key without a direction, is written as a call. -/
theorem isWrittenAs_call {item : Directive} {word : String}
    (hword : IsWord word ∧ word ∉ ["true", "false", "and", "or"]) (hclause : word ∈ clauseNames)
    (h : d.Worded Value.IsUnquoted)
    (hrender : item.render .compact = word.toList ++ '(' :: d.render .compact ++ [')']) :
    IsWrittenAs item (.call word [d.reread.regroup]) where
  spells := by
    have hcall : (Directive.call word [d.reread.regroup]).IsLegible :=
      .call hword.1 hword.2 (by simpa using isLegible_normal h)
    have hspells := spells_render hcall
    rw [Directive.render, Directive.renderAll_eq_map, List.map_singleton,
      List.intercalate_singleton, render_normal_compact h] at hspells
    rwa [hrender]
  legible := .call hword.1 hword.2 (by simpa using isLegible_normal h)
  fits := .call _ (by simpa using fits_normal h)
  head := fun _ => head_call_ne_marker hclause

theorem render_order (key : Directive) (x : Binary64) :
    (Directive.order key x).render .compact = "order".toList ++
      '(' :: (key.render .compact ++ if x.equal .one then [] else ',' :: x.text) ++ [')'] := by
  rw [Directive.render]
  rfl

theorem fits_reread_float (x : Binary64) : Fits loosest (Value.float x).reread := by
  have hsigned {negative : Bool} {d : Directive} (h : ∀ level, Fits level d) :
      Fits loosest (Directive.signed negative d) := by
    cases negative with
    | false => exact h loosest
    | true => exact .unary .negative (h 0)
  cases x with
  | finite negative rank => exact hsigned fun _ => .constant _
  | infinity negative => exact hsigned fun _ => .column _
  | nan => exact .column _

/-- A sort key whose direction is written out. The comma before it has no
space, which the comma between arguments has. -/
theorem isWrittenAs_directed {x : Binary64} (h : key.Worded Value.IsUnquoted)
    (hone : ¬ x.equal .one = true) :
    IsWrittenAs (.order key x) (.call "order" [key.reread.regroup, (Value.float x).reread]) where
  spells := by
    have hkey := spells_render (isLegible_normal h)
    have hdirection := spells_render (isLegible_reread (v := .float x) trivial)
    rw [render_normal_compact h] at hkey
    rw [render_reread_compact] at hdirection
    have hpieces : ∀ p ∈ [(key.render .compact, key.reread.regroup.tokens),
        (x.text, (Value.float x).reread.tokens)], Spells Delimits p.1 p.2 := by
      simpa using ⟨hkey, hdirection⟩
    have hcall := spells_call isWord_order.1 (spells_comma fun _ => True) delimits_comma hpieces
    rw [Token.ofWord_of_notMem isWord_order.2] at hcall
    rw [render_order, if_neg hone, Directive.tokens, Directive.tokensAll_eq_map]
    simpa [List.intercalate_cons_cons] using hcall
  legible := by
    refine .call isWord_order.1 isWord_order.2 ?_
    simpa using ⟨isLegible_normal h, isLegible_reread (v := .float x) trivial⟩
  fits := by
    refine .call _ ?_
    simpa using ⟨fits_normal h, fits_reread_float x⟩
  head := fun _ => head_call_ne_marker (by decide)

/-- The rank of two. -/
theorem two_lt_finiteCount : 0x4000000000000000 < finiteCount := by decide

theorem one_eq_finite : Binary64.one = .finite false ⟨0x3ff0000000000000, by decide⟩ := by
  decide +kernel

theorem eq_one_of_equal {x : Binary64} (h : x.equal .one = true) : x = .one := by
  rw [one_eq_finite] at h ⊢
  cases x with
  | finite negative rank =>
      simp only [Binary64.equal, Bool.and_eq_true, beq_iff_eq, Bool.or_eq_true] at h
      obtain ⟨rfl, hsign⟩ := h
      simp at hsign
      rw [hsign]
  | _ => cases h

end

namespace Directive.IsWritable

variable {property : Value → Prop} {d : Directive}

theorem mono {other : Value → Prop} (h : d.IsWritable property)
    (hproperty : ∀ v, property v → other v) : d.IsWritable other := by
  cases h with
  | expression h hleft hclause => exact .expression (h.mono hproperty) hleft hclause
  | clause c h => exact .clause c (h.mono hproperty)
  | order h hdirection => exact .order (h.mono hproperty) (hproperty _ hdirection)

theorem isWrittenAs (h : d.IsWritable Value.IsUnquoted) : IsWrittenAs d d.spelled := by
  cases h with
  | expression h hleft hclause =>
      rw [h.spelled_eq]
      exact isWrittenAs_expression h hleft
  | clause c h =>
      refine isWrittenAs_call (isWord_clauseWord c) (by cases c <;> decide) h ?_
      rw [render]
      rfl
  | @order key direction h hdirection =>
      rw [spelled]
      by_cases hone : direction.equal .one = true
      · rw [if_pos hone]
        refine isWrittenAs_call isWord_order (by decide) h ?_
        rw [render_order, if_pos hone, List.append_nil]
      · rw [if_neg hone]
        exact isWrittenAs_directed h hone

theorem readAs (h : d.IsWritable property)
    (hfinite : ∀ key x, d = .order key x → (Value.float x).IsFinite) :
    ReadAs d.spelled d.normal := by
  cases h with
  | expression h hleft hclause =>
      rw [h.spelled_eq, h.normal_eq]
      exact .other fun hcall => hclause (Directive.isClauseCall_of_reread_regroup hcall)
  | clause c h => exact .clause c _
  | @order key direction h hdirection =>
      rw [spelled, normal]
      by_cases hone : direction.equal .one = true
      · rw [if_pos hone, eq_one_of_equal hone]
        exact .order _
      · rw [if_neg hone]
        cases direction with
        | finite negative rank => exact .directed _ (signedNumber_reread negative rank)
        | infinity | nan => exact (hfinite _ _ rfl).elim

theorem role_of_isExpression {d : Directive} (h : d.IsExpression) : d.role = .value := by
  cases h <;> rfl

theorem role_normal (h : d.IsWritable Value.IsUnquoted) : d.normal.role = d.role := by
  cases h with
  | expression h hleft hclause =>
      rw [h.normal_eq, role_of_isExpression h.isExpression,
        role_of_isExpression (isLegible_normal h).isExpression]
  | clause c h => rfl
  | order h hdirection => rfl

/-- The text is kept in every language that keeps it for the constants. -/
theorem render_normal (h : d.IsWritable property) {language : Language}
    (hunquoted : ∀ v, property v → v.IsUnquoted)
    (hproperty : ∀ v, property v → v.reread.render language = v.text) :
    d.normal.render language = d.render language := by
  cases h with
  | expression h hleft hclause =>
      rw [h.normal_eq]
      exact QueryNotation.render_normal h hunquoted hproperty
  | clause c h => rw [normal, render, render, QueryNotation.render_normal h hunquoted hproperty]
  | order h hdirection =>
      rw [normal, render, render, QueryNotation.render_normal h hunquoted hproperty]

end Directive.IsWritable

/-! ## Queries -/

section

variable {spelled result : Directive → Directive} {spelling : Directive → List Token}
  {ds : List Directive}

theorem spells_items (h : ∀ d ∈ ds, Spells Delimits (d.render .compact) (spelling d)) :
    Spells Delimits ([','].intercalate (ds.map (Directive.render .compact)))
      ([.symbol .comma].intercalate (ds.map spelling)) := by
  have hpieces : ∀ p ∈ ds.map fun d => (d.render .compact, spelling d), Spells Delimits p.1 p.2 := by
    intro p hp
    obtain ⟨d, hd, rfl⟩ := List.mem_map.1 hp
    exact h d hd
  have hjoined := spells_joined (spells_comma fun _ => True) (fun rest => delimits_comma _) hpieces
  simpa only [List.map_map, Function.comp_def] using hjoined

theorem derivesItems_intercalate (h : ∀ d ∈ ds, IsWrittenAs d (spelled d))
    (hread : ∀ d ∈ ds, ReadAs (spelled d) (result d)) :
    DerivesItems (Directive.largestCost (ds.map spelled))
      ([.symbol .comma].intercalate (ds.map fun d => (spelled d).tokens)) (ds.map result) := by
  induction ds with
  | nil => exact .last .empty
  | cons d ds ih =>
      obtain ⟨hd, hds⟩ := List.forall_mem_cons.1 h
      obtain ⟨hreadd, hreadds⟩ := List.forall_mem_cons.1 hread
      have hitem := DerivesSlot.item (hd.derivesItem hreadd)
      rw [List.map_cons, Directive.largestCost]
      cases ds with
      | nil => simpa [Directive.largestCost] using DerivesItems.last hitem
      | cons e ds =>
          have hitems := DerivesItems.cons hitem (ih hds hreadds)
          simpa [List.intercalate_cons_cons] using hitems

theorem spells_query {table : String} {text : List Char} {ts : List Token}
    (htable : HasTokens table [.word table]) (h : Spells Delimits text ts) :
    Spells (fun _ => True) (table.toList ++ '[' :: text ++ [']'])
      (.word table :: .symbol .openBracket :: (ts ++ [.symbol .closeBracket])) := by
  obtain ⟨hword, hname⟩ := hasTokens_word_iff.1 htable
  have hopen := spells_bracket (s := .openBracket) (fun _ => True)
    (by simp [Symbol.IsWordOperator]) (by simp [Symbol.TakesEquals])
  have hclose := spells_bracket (s := .closeBracket) (fun _ => True)
    (by simp [Symbol.IsWordOperator]) (by simp [Symbol.TakesEquals])
  have hbracket {c : Char} {rest : List Char} (hc : c = '[' ∨ c = ']') : Delimits (c :: rest) := by
    rcases hc with rfl | rfl <;> exact delimits_cons (by decide)
  have hitems := h.append hclose fun rest _ => hbracket (.inr rfl)
  have hrest := hopen.append hitems fun _ _ => trivial
  have hall := (spells_word hword).append hrest fun rest _ => hbracket (.inl rfl)
  rw [Token.ofWord_of_notMem hname] at hall
  simpa [Symbol.text] using hall

theorem hasTokens_query {q : Query} (htable : HasTokens q.table [.word q.table])
    (h : ∀ d ∈ q.directives, Spells Delimits (d.render .compact) (spelling d)) :
    HasTokens (q.text .compact) (.word q.table :: .symbol .openBracket ::
      ([.symbol .comma].intercalate (q.directives.map spelling) ++
        [.symbol .closeBracket])) := by
  refine Spells.hasTokens (?_ : Spells (fun _ => True) _ _) trivial
  rw [Query.text, String.toList_ofList]
  exact spells_query htable (spells_items h)

theorem derivesQuery_directives {q : Query} (h : ∀ d ∈ q.directives, IsWrittenAs d (spelled d))
    (hread : ∀ d ∈ q.directives, ReadAs (spelled d) (result d)) :
    DerivesQuery (Directive.largestCost (q.directives.map spelled))
      (.word q.table :: .symbol .openBracket ::
        ([.symbol .comma].intercalate (q.directives.map fun d => (spelled d).tokens) ++
          [.symbol .closeBracket]))
      ((Query.new q.table).appendAll (q.directives.map result)) :=
  .mk q.table (derivesItems_intercalate h hread)

end

end QueryNotation
