import QueryNotation.Proofs.NotationRoundTrip
import QueryNotation.Proofs.RelationalReading

/-!
# Queries with one notation

Trees of different shape may have the same notation. They are read as one
tree, and a clause cannot be written as an expression. The notations of
the items of a query are written with commas between them, as arguments of
a call are, and can be told apart in the same way. So the notation of a
query determines its statement, even where the notation cannot be read
back: the name of a marker may be that of a column, and no tree is too deep.
-/

namespace QueryNotation

open BinaryOperator Number

variable {d e : Directive} {ds es : List Directive}

/-! ## Items -/

/-- An expression that is no call with the name of a clause, or a clause
around an expression. The constants have a property. -/
inductive Directive.IsItem (property : Value → Prop) : Directive → Prop where
  | expression {d : Directive} (h : d.Worded property) (hclause : ¬ d.IsClauseCall) :
      IsItem property d
  | clause (c : Clause) {d : Directive} (h : d.Worded property) : IsItem property (.clause c d)
  | order {key : Directive} {direction : Binary64} (h : key.Worded property)
      (hdirection : property (.float direction)) : IsItem property (.order key direction)

namespace Directive.IsItem

variable {property : Value → Prop}

/-- Only an expression may start with the name of a marker. -/
theorem cases_isWritable (h : d.IsItem property) :
    (d.Worded property ∧ ¬ d.IsClauseCall) ∨ d.IsWritable property := by
  cases h with
  | expression h hclause => exact .inl ⟨h, hclause⟩
  | clause c h => exact .inr (.clause c h)
  | order h hdirection => exact .inr (.order h hdirection)

theorem mono {other : Value → Prop} (h : d.IsItem property)
    (hproperty : ∀ v, property v → other v) : d.IsItem other := by
  cases h with
  | expression h hclause => exact .expression (h.mono hproperty) hclause
  | clause c h => exact .clause c (h.mono hproperty)
  | order h hdirection => exact .order (h.mono hproperty) (hproperty _ hdirection)

theorem spells (h : d.IsItem Value.IsUnquoted) :
    Spells Delimits (d.render .compact) d.spelled.tokens := by
  rcases h.cases_isWritable with ⟨h, -⟩ | h
  · rw [h.spelled_eq, ← render_normal_compact h]
    exact spells_render (isLegible_normal h)
  · exact h.isWrittenAs.spells

theorem isLegible_spelled (h : d.IsItem Value.IsUnquoted) : d.spelled.IsLegible := by
  rcases h.cases_isWritable with ⟨h, -⟩ | h
  · exact h.spelled_eq ▸ isLegible_normal h
  · exact h.isWrittenAs.legible

theorem fits_spelled (h : d.IsItem Value.IsUnquoted) : Fits loosest d.spelled := by
  rcases h.cases_isWritable with ⟨h, -⟩ | h
  · exact h.spelled_eq ▸ fits_normal h
  · exact h.isWrittenAs.fits

theorem readAs (h : d.IsItem Value.IsPlain) : ReadAs d.spelled d.normal := by
  cases h with
  | expression h hclause =>
      rw [h.spelled_eq, h.normal_eq]
      exact .other fun hcall => hclause (isClauseCall_of_reread_regroup hcall)
  | clause c h => exact (IsWritable.clause c h).readAs nofun
  | order h hdirection =>
      apply (IsWritable.order h hdirection).readAs
      rintro key x ⟨⟩
      exact hdirection.2

theorem role_normal (h : d.IsItem Value.IsUnquoted) : d.normal.role = d.role := by
  rcases h.cases_isWritable with ⟨h, -⟩ | h
  · calc d.normal.role
      _ = .value := h.normal_eq ▸ IsWritable.role_of_isExpression (isLegible_normal h).isExpression
      _ = d.role := (IsWritable.role_of_isExpression h.isExpression).symm
  · exact h.role_normal

theorem render_normal (h : d.IsItem Value.IsPlain) (language : Language) :
    d.normal.render language = d.render language := by
  rcases h.cases_isWritable with ⟨h, -⟩ | h
  · rw [h.normal_eq]
    exact QueryNotation.render_normal h (fun _ hv => hv.1) fun _ hv => render_reread language hv.2
  · exact h.render_normal (fun _ hv => hv.1) fun _ hv => render_reread language hv.2

/-- The expression that an item is written as determines the item that it is
read as. -/
theorem normal_eq (hd : d.IsItem Value.IsPlain) (he : e.IsItem Value.IsPlain)
    (h : d.spelled = e.spelled) : d.normal = e.normal := by
  apply hd.readAs.unique
  rw [h]
  exact he.readAs

end Directive.IsItem

/-! ## Items with commas between them -/

/-- The notations of several items, as they stand in that of a query. -/
def itemTexts (ds : List Directive) : List Char := [','].intercalate (ds.map (·.render .compact))

/-- Between parentheses and behind a name, items are read as arguments. -/
theorem hasTokens_called (h : ∀ d ∈ ds, d.IsItem Value.IsUnquoted) :
    HasTokens (String.ofList ("f".toList ++ '(' :: itemTexts ds ++ [')']))
      (Directive.call "f" (ds.map Directive.spelled)).tokens := by
  have hname : IsWord "f" := isWord_of_all "f" (by decide)
  have hpieces : ∀ p ∈ ds.map fun d => (d.render .compact, d.spelled.tokens),
      Spells Delimits p.1 p.2 := by
    intro p hp
    obtain ⟨d, hd, rfl⟩ := List.mem_map.1 hp
    exact (h d hd).spells
  have hcall := spells_call hname (spells_comma fun _ => True) delimits_comma hpieces
  rw [Token.ofWord_of_notMem (by decide)] at hcall
  apply Spells.hasTokens _ delimits_nil
  rw [Directive.tokens, Directive.tokensAll_eq_map]
  simpa only [String.toList_ofList, itemTexts, List.map_map, Function.comp_def] using hcall

theorem derives_called_items (h : ∀ d ∈ ds, d.IsItem Value.IsUnquoted) :
    Derives loosest (Directive.call "f" (ds.map Directive.spelled)).tokens
      (.call "f" (ds.map Directive.spelled)) := by
  apply derives_tokens
  · apply Fits.call
    intro e he
    obtain ⟨d, hd, rfl⟩ := List.mem_map.1 he
    exact (h d hd).fits_spelled
  · apply Directive.Worded.call (isWord_of_all "f" (by decide)) (by decide)
    intro e he
    obtain ⟨d, hd, rfl⟩ := List.mem_map.1 he
    exact (h d hd).isLegible_spelled

/-- What items are written as can be told from their joined notation. -/
theorem map_spelled_eq (hd : ∀ d ∈ ds, d.IsItem Value.IsUnquoted)
    (he : ∀ e ∈ es, e.IsItem Value.IsUnquoted) (h : itemTexts ds = itemTexts es) :
    ds.map Directive.spelled = es.map Directive.spelled := by
  have htext := hasTokens_called hd
  have htokens := htext.unique (h ▸ hasTokens_called he)
  have hcall := htext.expression_unique (derives_called_items hd)
    (htokens ▸ derives_called_items he)
  exact (Directive.call.inj hcall).2

theorem map_normal_eq (hd : ∀ d ∈ ds, d.IsItem Value.IsPlain)
    (he : ∀ e ∈ es, e.IsItem Value.IsPlain)
    (h : ds.map Directive.spelled = es.map Directive.spelled) :
    ds.map Directive.normal = es.map Directive.normal := by
  induction ds generalizing es with
  | nil =>
      cases es with
      | nil => rfl
      | cons e es => cases h
  | cons d ds ih =>
      cases es with
      | nil => cases h
      | cons e es =>
          rw [List.map_cons, List.map_cons, List.cons.injEq] at h
          obtain ⟨hhere, hrest⟩ := h
          obtain ⟨hd, hds⟩ := List.forall_mem_cons.1 hd
          obtain ⟨he, hes⟩ := List.forall_mem_cons.1 he
          rw [List.map_cons, List.map_cons, hd.normal_eq he hhere, ih hds hes hrest]

/-! ## Queries -/

namespace Query

variable {q r : Query}

theorem compactText_eq (q : Query) :
    q.compactText = q.table.toList ++ '[' :: (itemTexts q.directives ++ [']']) := by
  simp [compactText, itemTexts]

/-- The notation shows where the name of the table ends. -/
theorem table_and_items_eq (hq : IsWord q.table) (hr : IsWord r.table)
    (h : q.text .compact = r.text .compact) :
    q.table = r.table ∧ itemTexts q.directives = itemTexts r.directives := by
  have hbracket {rest : List Char} :
      ∀ c, ('[' :: rest).head? = some c → Text.continuesWord c = false := by
    rintro c ⟨⟩
    decide
  have hlists : q.compactText = r.compactText := String.ofList_injective h
  rw [compactText_eq, compactText_eq] at hlists
  have htable := congrArg (List.takeWhile Text.continuesWord) hlists
  have hitems := congrArg (List.dropWhile Text.continuesWord) hlists
  rw [takeWhile_append_of_stop hq.2 hbracket, takeWhile_append_of_stop hr.2 hbracket] at htable
  rw [dropWhile_append_of_stop hq.2 hbracket, dropWhile_append_of_stop hr.2 hbracket,
    List.cons.injEq] at hitems
  exact ⟨String.toList_inj.1 htable, List.append_cancel_right hitems.2⟩

/-- The statement shows neither how a tree is grouped nor the type of a number. -/
theorem text_relational_normal_of_isItem (hq : q.Built)
    (hitems : ∀ d ∈ q.directives, d.IsItem Value.IsPlain) :
    q.normal.text .relational = q.text .relational := by
  apply text_relational_eq hq q.built_normal q.table_normal q.directives_normal
  · intro d hd
    exact ((hitems d hd).mono fun _ hv => hv.1).role_normal
  · intro d hd
    exact (hitems d (mem_directives_of_mem_shown hd)).render_normal .relational

end Query

/-- Two queries with the same notation have the same statement. -/
theorem Query.relational_eq_of_compact_eq {q r : Query} (hq : q.Built) (hr : r.Built)
    (hqtable : IsWord q.table) (hrtable : IsWord r.table)
    (hqitems : ∀ d ∈ q.directives, d.IsItem Value.IsPlain)
    (hritems : ∀ d ∈ r.directives, d.IsItem Value.IsPlain)
    (h : q.text .compact = r.text .compact) : q.text .relational = r.text .relational := by
  obtain ⟨htable, hitems⟩ := table_and_items_eq hqtable hrtable h
  have hspelled : q.directives.map Directive.spelled = r.directives.map Directive.spelled := by
    apply map_spelled_eq _ _ hitems
    · intro d hd
      exact (hqitems d hd).mono fun _ hv => hv.1
    · intro d hd
      exact (hritems d hd).mono fun _ hv => hv.1
  have hnormal : q.normal = r.normal := by
    rw [normal, normal, htable, map_normal_eq hqitems hritems hspelled]
  calc q.text .relational
    _ = q.normal.text .relational := (text_relational_normal_of_isItem hq hqitems).symm
    _ = r.normal.text .relational := congrArg (·.text .relational) hnormal
    _ = r.text .relational := text_relational_normal_of_isItem hr hritems

/-- A product of a sum, over a table whose name is an operator. -/
def productOfSum : Query :=
  (Query.new "and").appendAll
    [.binary .multiply (.binary .plus (.column "distinct") (.constant (.integer (-5)))) (.column "or"),
      .order (.column "a") (.finite true ⟨0x4000000000000000, two_lt_finiteCount⟩)]

/-- A sum with a negated product, and a decimal in place of the integer. -/
def sumOfProduct : Query :=
  (Query.new "and").appendAll
    [.binary .plus (.column "distinct") (.unary .negative (.binary .multiply
        (.constant (.decimal ⟨50, 1, by decide, by decide⟩)) (.column "or"))),
      .order (.column "a") (.finite true ⟨0x4000000000000000, two_lt_finiteCount⟩)]

theorem productOfSum_sumOfProduct :
    (productOfSum.Built ∧ sumOfProduct.Built ∧ IsWord productOfSum.table ∧
      IsWord sumOfProduct.table ∧ (∀ d ∈ productOfSum.directives, d.IsItem Value.IsPlain) ∧
      (∀ d ∈ sumOfProduct.directives, d.IsItem Value.IsPlain) ∧
      productOfSum.text .compact = sumOfProduct.text .compact) ∧
    productOfSum.text .relational = sumOfProduct.text .relational := by
  have htable : IsWord "and" := isWord_of_all "and" (by decide +kernel)
  have hdistinct : (Directive.column "distinct").Worded Value.IsPlain :=
    .column (isWord_of_all "distinct" (by decide +kernel)) (by decide)
  have hor : (Directive.column "or").Worded Value.IsPlain :=
    .column (isWord_of_all "or" (by decide +kernel)) (by decide)
  have horder : (Directive.order (.column "a") (.finite true
      ⟨0x4000000000000000, two_lt_finiteCount⟩)).IsItem Value.IsPlain :=
    .order (.column (isWord_of_all "a" (by decide +kernel)) (by decide)) ⟨trivial, trivial⟩
  have hleft : ∀ d ∈ productOfSum.directives, d.IsItem Value.IsPlain := by
    intro d hd
    rcases List.mem_cons.1 hd with rfl | hd
    · exact .expression (.binary _ (.binary _ hdistinct (.constant ⟨trivial, trivial⟩)) hor) id
    · exact List.mem_singleton.1 hd ▸ horder
  have hright : ∀ d ∈ sumOfProduct.directives, d.IsItem Value.IsPlain := by
    intro d hd
    rcases List.mem_cons.1 hd with rfl | hd
    · exact .expression (.binary _ hdistinct
        (.unary _ (.binary _ (.constant ⟨trivial, trivial⟩) hor))) id
    · exact List.mem_singleton.1 hd ▸ horder
  have hbuilt (ds : List Directive) : ((Query.new "and").appendAll ds).Built :=
    (Query.Built.new "and").appendAll ds
  have htext : productOfSum.text .compact = sumOfProduct.text .compact := by decide +kernel
  exact ⟨⟨hbuilt _, hbuilt _, htable, htable, hleft, hright, htext⟩,
    Query.relational_eq_of_compact_eq (hbuilt _) (hbuilt _) htable htable hleft hright htext⟩

end QueryNotation
