import QueryNotation.Proofs.ItemSpelling

/-!
# Items that were read

The constants of a tree that was read have no signs. Printing the tree and
reading it again makes a constant a constant or a column, and keeps the
shape of the tree and its cost. A direction is printed with at most one
sign, and with none if it was read without.
-/

namespace QueryNotation

open BinaryOperator Number

/-! ## Constants without a sign -/

/-- The text of the value is read as a constant or as a column. -/
def Value.IsUndivided (v : Value) : Prop :=
  (∃ w, v.reread = .constant w) ∨ ∃ name, v.reread = .column name

theorem Value.IsUnsigned.isUndivided {v : Value} (h : v.IsUnsigned) : v.IsUndivided := by
  cases v with
  | integer n =>
      have hsign : decide (n.toInt < 0) = false := decide_eq_false (Int.not_lt.2 h)
      rw [IsUndivided, reread, readSigned, hsign]
      exact .inl ⟨_, rfl⟩
  | float x =>
      obtain ⟨rank, rfl⟩ := h
      unfold Binary64.ofRank
      split
      next => exact .inl ⟨_, rfl⟩
      next => exact .inr ⟨_, rfl⟩
  | decimal d =>
      have hsign : decide (d.mantissa < 0) = false := decide_eq_false (Int.not_lt.2 h)
      rw [IsUndivided, reread, readSigned, hsign]
      exact .inl ⟨_, rfl⟩
  | string s => exact .inl ⟨_, rfl⟩
  | boolean b => exact .inl ⟨_, rfl⟩

/-- The text of the value is a numeral or a word. -/
theorem Value.IsUnsigned.text_cases {v : Value} (h : v.IsUnsigned) (hunquoted : v.IsUnquoted) :
    (∃ digits places, v.text = fixedPoint digits places) ∨
      v.text ∈ ["true".toList, "false".toList, "inf".toList] := by
  cases v with
  | integer n =>
      refine .inl ⟨n.toInt.natAbs, 0, ?_⟩
      rw [text, integerText, if_neg (Int.not_lt.2 h), fixedPoint, if_pos rfl, List.nil_append]
  | float x =>
      obtain ⟨rank, rfl⟩ := h
      unfold Binary64.ofRank
      split
      next hrank =>
        have htext := @text_of_shortest false _ _ ⟨rank, hrank⟩ (Prod.eta _).symm
        rw [if_neg Bool.false_ne_true, List.nil_append] at htext
        exact .inl ⟨_, _, htext⟩
      next => exact .inr (by decide)
  | decimal d =>
      have htext := text_normalize d
      rw [if_neg (Int.not_lt.2 h), List.nil_append] at htext
      exact .inl ⟨_, _, htext⟩
  | string s => exact hunquoted.elim
  | boolean b => cases b <;> exact .inr (by decide)

theorem isDigit_or_point_of_mem_fixedPoint {digits places : Nat} {c : Char}
    (h : c ∈ fixedPoint digits places) : c.isDigit = true ∨ c = '.' := by
  rw [← numeralText_parts, numeralText, List.mem_append] at h
  rcases h with h | h
  · exact .inl (isDigit_of_mem_toDigits h)
  · split at h
    next => cases h
    next =>
      rcases List.mem_cons.1 h with h | h
      · exact .inr h
      · exact .inl (isDigit_of_mem_fractionPart h)

theorem isUnsigned_of_toBinary64? {v : Value} {x : Binary64} (h : v.IsUnsigned)
    (hx : v.toBinary64? = some x) : (Value.float x).IsUnsigned := by
  cases v with
  | integer n =>
      have hsign : decide (n.toInt < 0) = false := decide_eq_false (Int.not_lt.2 h)
      rw [Value.toBinary64?, Option.some.injEq, Binary64.ofInt, hsign] at hx
      exact ⟨_, hx.symm⟩
  | float y =>
      cases hx
      exact h
  | decimal d =>
      have hsign : decide (d.mantissa < 0) = false := decide_eq_false (Int.not_lt.2 h)
      rw [Value.toBinary64?, Option.some.injEq, Decimal.toBinary64, hsign] at hx
      exact ⟨_, hx.symm⟩
  | string | boolean => cases hx

/-! ## The shape of a tree -/

namespace Directive

theorem largestCost_le_iff {ds : List Directive} {n : Nat} :
    largestCost ds ≤ n ↔ ∀ d ∈ ds, d.cost ≤ n := by
  induction ds with
  | nil => simp [largestCost]
  | cons d ds ih => rw [largestCost, Nat.max_le, ih, List.forall_mem_cons]

theorem largestCost_map {ds : List Directive} {f : Directive → Directive}
    (h : ∀ d ∈ ds, (f d).cost = d.cost) : largestCost (ds.map f) = largestCost ds := by
  induction ds with
  | nil => rfl
  | cons d ds ih =>
      obtain ⟨hd, hds⟩ := List.forall_mem_cons.1 h
      rw [List.map_cons, largestCost, largestCost, hd, ih hds]

variable {d : Directive}

theorem Worded.fits_reread {level : Nat} (h : d.Worded Value.IsUndivided) (hfits : Fits level d) :
    Fits level d.reread := by
  induction hfits with
  | column name => exact .column name
  | constant value =>
      cases h with
      | constant h =>
          rw [Directive.reread]
          rcases h with ⟨w, hw⟩ | ⟨name, hw⟩ <;> rw [hw]
          · exact .constant w
          · exact .column _
  | call name hfits ih =>
      cases h with
      | call hword hname h =>
          rw [Directive.reread, rereadAll_eq_map]
          refine .call name ?_
          intro e he
          obtain ⟨d, hd, rfl⟩ := List.mem_map.1 he
          exact ih d hd (h d hd)
  | group hfits ih =>
      cases h with
      | group h =>
          rw [Directive.reread]
          exact .group (ih h)
  | unary op hfits ih =>
      cases h with
      | unary _ h =>
          rw [Directive.reread]
          exact .unary op (ih h)
  | binary hlevel hfitsa hfitsb iha ihb =>
      cases h with
      | binary _ ha hb =>
          rw [Directive.reread]
          exact .binary hlevel (iha ha) (ihb hb)

theorem Worded.spine_reread (level : Nat) (h : d.Worded Value.IsUndivided) :
    d.reread.spine level = d.spine level := by
  induction h with
  | constant h =>
      rw [Directive.reread]
      rcases h with ⟨w, hw⟩ | ⟨name, hw⟩ <;> rw [hw] <;> rfl
  | binary op ha hb iha ihb => rw [Directive.reread, spine, iha, spine]
  | _ => rfl

theorem Worded.cost_reread (h : d.Worded Value.IsUndivided) : d.reread.cost = d.cost := by
  induction h with
  | column hword hname => rfl
  | constant h =>
      rw [Directive.reread]
      rcases h with ⟨w, hw⟩ | ⟨name, hw⟩ <;> rw [hw] <;> rfl
  | call hword hname h ih =>
      rw [Directive.reread, rereadAll_eq_map, cost, cost, largestCost_map ih]
  | group h ih => rw [Directive.reread, cost, cost, ih]
  | unary op h ih => rw [Directive.reread, cost, cost, ih]
  | binary op ha hb iha ihb => rw [Directive.reread, cost, cost, iha, ihb, ha.spine_reread]

theorem Worded.and {property other : Value → Prop} (h : d.Worded property) (h' : d.Worded other) :
    d.Worded fun v => property v ∧ other v := by
  induction h with
  | column hword hname => exact .column hword hname
  | constant h =>
      cases h' with
      | constant h' => exact .constant ⟨h, h'⟩
  | call hword hname h ih =>
      cases h' with
      | call _ _ h' => exact .call hword hname fun d hd => ih d hd (h' d hd)
  | group h ih =>
      cases h' with
      | group h' => exact .group (ih h')
  | unary op h ih =>
      cases h' with
      | unary _ h' => exact .unary op (ih h')
  | binary op ha hb iha ihb =>
      cases h' with
      | binary _ ha' hb' => exact .binary op (iha ha') (ihb hb')

/-- A tree that follows precedence is changed in its constants alone. -/
theorem Worded.regroup_reread (h : d.Worded Value.IsUndivided) (hfits : Fits loosest d) :
    d.reread.regroup = d.reread := regroup_of_fits (h.fits_reread hfits)

theorem Worded.cost_regroup_reread (h : d.Worded Value.IsUndivided) (hfits : Fits loosest d) :
    d.reread.regroup.cost = d.cost := by
  rw [h.regroup_reread hfits]
  exact h.cost_reread

/-! ## Directions -/

theorem cost_reread_float (x : Binary64) : (Value.float x).reread.cost ≤ 1 := by
  have hsigned {negative : Bool} {d : Directive} (h : d.cost = 0) : (signed negative d).cost ≤ 1 := by
    cases negative with
    | false => exact Nat.le_trans (Nat.le_of_eq h) (Nat.zero_le 1)
    | true =>
        have hcost : (signed true d).cost = 1 := by rw [signed, if_pos rfl, cost, h]
        exact Nat.le_of_eq hcost
  cases x with
  | finite negative rank => exact hsigned rfl
  | infinity negative => exact hsigned rfl
  | nan => exact Nat.zero_le 1

/-- A direction is printed with no more signs than it was read with. -/
theorem cost_reread_direction {x : Binary64} (h : SignedNumber d x)
    (hd : d.Worded Value.IsUnsigned) : (Value.float x).reread.cost ≤ d.cost := by
  have hone {op : UnaryOperator} {inner : Directive} : 1 ≤ (unary op inner).cost := by
    rw [cost]
    exact Nat.le_add_right 1 _
  cases h with
  | number hx =>
      cases hd with
      | constant hv =>
          have hunsigned := isUnsigned_of_toBinary64? hv hx
          rcases hunsigned.isUndivided with ⟨w, hw⟩ | ⟨name, hw⟩ <;> rw [hw] <;>
            exact Nat.zero_le _
  | plus h => exact Nat.le_trans (cost_reread_float _) hone
  | minus h => exact Nat.le_trans (cost_reread_float _) hone

end Directive

/-! ## Items -/

/-- The leftmost name of a tree is its first token, unless that is an
operator elsewhere. -/
theorem Derives.head?_of_leftmostName? {level : Nat} {ts : List Token} {d : Directive}
    {name : String} (h : Derives level ts d) (hname : d.leftmostName? = some name)
    (hoperator : name ∉ ["and", "or"]) : ts.head? = some (.word name) := by
  induction h with
  | literal value => cases hname
  | column name' =>
      cases hname
      rfl
  | andColumn =>
      cases hname
      exact (hoperator (by simp)).elim
  | orColumn =>
      cases hname
      exact (hoperator (by simp)).elim
  | call name' parts hjoined hparts ih =>
      cases hname
      rfl
  | group h ih => cases hname
  | unary hop h ih => cases hname
  | lift h ih => exact ih hname
  | binary ha hop hb iha ihb =>
      obtain ⟨t, us, hts⟩ := List.exists_cons_of_ne_nil ha.ne_nil
      have hhead := iha hname
      rw [hts] at hhead ⊢
      exact hhead

theorem DerivesItems.exists_item {n : Nat} {ts : List Token} {ds : List Directive}
    (h : DerivesItems n ts ds) :
    ∀ d ∈ ds, ∃ m us, DerivesItem m us d ∧ m ≤ n ∧ us ⊆ ts := by
  obtain ⟨items, rfl, hitems, hroom⟩ := h.exists_parts
  intro d hd
  obtain ⟨i, hi, rfl⟩ := List.mem_map.1 hd
  obtain ⟨hitem, hinfix⟩ := hitems i hi
  exact ⟨i.1, i.2.1, hitem, (hroom n).1 (Nat.le_refl n) i hi, hinfix.subset⟩

/-- A tree whose tokens have no strings. -/
structure Directive.IsRead (d : Directive) : Prop where
  unquoted : d.Worded Value.IsUnquoted
  unsigned : d.Worded Value.IsUnsigned
  fits : Fits loosest d

theorem Derives.isRead {ts : List Token} {d : Directive} (h : Derives loosest ts d)
    (hlexed : ∀ t ∈ ts, t.IsLexed) (hstrings : ∀ s, Token.literal (.string s) ∉ ts) :
    d.IsRead where
  unquoted := by
    refine h.worded hlexed ?_
    intro v hv
    cases v with
    | string s => exact hstrings s hv
    | _ => trivial
  unsigned := h.worded hlexed fun v hv => hlexed _ hv
  fits := h.fits

namespace Directive.IsRead

variable {d e : Directive}

theorem argument {name : String} {arguments : List Directive} (h : (call name arguments).IsRead) :
    ∀ d ∈ arguments, d.IsRead := by
  intro d hd
  obtain ⟨hunquoted, hunsigned, hfits⟩ := h
  cases hunquoted with
  | call _ _ hunquoted =>
      cases hunsigned with
      | call _ _ hunsigned =>
          cases hfits with
          | call _ hfits => exact ⟨hunquoted d hd, hunsigned d hd, hfits d hd⟩

theorem cost_normal (h : d.IsRead) : d.reread.regroup.cost = d.cost :=
  (h.unsigned.mono fun _ hv => hv.isUndivided).cost_regroup_reread h.fits

/-- What an expression stands for can be written, and is no costlier to read
again than the expression. -/
theorem isWritable (h : e.IsRead) (hread : ReadAs e d)
    (hleft : ∀ name, e.leftmostName? = some name → name ∉ ["distinct", "all"]) :
    d.IsWritable Value.IsUnquoted ∧ d.spelled.cost ≤ e.cost := by
  cases hread with
  | clause c inner =>
      have hinner := h.argument inner (by simp)
      refine ⟨.clause c hinner.unquoted, ?_⟩
      rw [spelled, cost, cost, largestCost, largestCost, hinner.cost_normal]
      exact Nat.le_refl _
  | order key =>
      have hkey := h.argument key (by simp)
      have hone : Binary64.one.equal .one = true := by decide +kernel
      refine ⟨.order hkey.unquoted trivial, ?_⟩
      rw [spelled, if_pos hone, cost, cost, largestCost, largestCost, hkey.cost_normal]
      exact Nat.le_refl _
  | @directed direction x key hdirection =>
      have hkey := h.argument key (by simp)
      have hcost := cost_reread_direction hdirection (h.argument direction (by simp)).unsigned
      refine ⟨.order hkey.unquoted trivial, ?_⟩
      rw [spelled, cost, cost, largestCost, largestCost, hkey.cost_normal]
      split
      next =>
        rw [largestCost]
        omega
      next =>
        rw [largestCost, largestCost, largestCost]
        omega
  | other hclause =>
      refine ⟨.expression h.unquoted hleft hclause, ?_⟩
      rw [h.unquoted.spelled_eq]
      exact Nat.le_of_eq h.cost_normal

end Directive.IsRead

/-- An item that was read and is no marker. -/
theorem DerivesItem.isWritable {n : Nat} {ts : List Token} {d : Directive}
    (h : DerivesItem n ts d) (hlexed : ∀ t ∈ ts, t.IsLexed)
    (hstrings : ∀ s, Token.literal (.string s) ∉ ts) (hdistinct : d ≠ .distinct)
    (hall : d ≠ .all) : d.IsWritable Value.IsUnquoted ∧ d.spelled.cost ≤ n := by
  cases h with
  | distinct => exact (hdistinct rfl).elim
  | all => exact (hall rfl).elim
  | @expression _ e _ h hdistinctHead hallHead hread =>
      refine (h.isRead hlexed hstrings).isWritable hread ?_
      intro name hname hmarker
      have hoperator : name ∉ ["and", "or"] := by
        have hdisjoint : ∀ name ∈ ["distinct", "all"], name ∉ ["and", "or"] := by decide
        exact hdisjoint name hmarker
      have hhead := h.head?_of_leftmostName? hname hoperator
      simp only [List.mem_cons, List.not_mem_nil, or_false] at hmarker
      rcases hmarker with rfl | rfl
      · exact hdistinctHead hhead
      · exact hallHead hhead

/-- The items of a text without strings and markers. -/
theorem HasTokens.isWritable {text : String} {ts : List Token} {n : Nat} {q : Query}
    (htext : HasTokens text ts) (h : DerivesQuery n ts q)
    (hstrings : ∀ s, Token.literal (.string s) ∉ ts)
    (hmarkers : .distinct ∉ q.directives ∧ .all ∉ q.directives) :
    q.Built ∧ HasTokens q.table [.word q.table] ∧
      ∀ d ∈ q.directives, d.IsWritable Value.IsUnquoted ∧ d.spelled.cost ≤ n := by
  have hlexed := htext.isLexed
  cases h with
  | @mk us ds table hitems =>
      have hdirectives : ((Query.new table).appendAll ds).directives = ds :=
        Query.directives_appendAll _ _
      refine ⟨(Query.Built.new table).appendAll ds, ?_, ?_⟩
      · rw [Query.table_appendAll]
        exact hasTokens_word_iff.2 (hlexed (.word table) (by simp))
      · rw [hdirectives] at hmarkers ⊢
        intro d hd
        obtain ⟨m, vs, hitem, hm, hsub⟩ := hitems.exists_item d hd
        have hmem {t : Token} (ht : t ∈ vs) : t ∈ Token.word table :: .symbol .openBracket ::
            (us ++ [.symbol .closeBracket]) := by simp [hsub ht]
        obtain ⟨hwritable, hcost⟩ := hitem.isWritable (fun t ht => hlexed t (hmem ht))
          (fun s hs => hstrings s (hmem hs)) (fun h => hmarkers.1 (h ▸ hd)) fun h => hmarkers.2 (h ▸ hd)
        exact ⟨hwritable, Nat.le_trans hcost hm⟩

end QueryNotation
