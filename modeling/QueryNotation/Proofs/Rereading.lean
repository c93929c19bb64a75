import QueryNotation.Proofs.TreeSpelling

/-!
# What a printed tree is read as

Two things change when the notation of a tree is read again: constants
become what their text is read as, and operators are regrouped by
precedence. Both keep the text of the tree, unless a constant is not
finite, and lead to a tree whose notation the grammar gives back.
-/

namespace QueryNotation

open BinaryOperator Number

/-! ## Constants -/

theorem opens_fixedPoint (digits places : Nat) : Opens (fixedPoint digits places) := by
  have hdigits {n : Nat} : Opens (Nat.toDigits 10 n) := by
    obtain ⟨c, rest, hrest⟩ := List.exists_cons_of_ne_nil (Nat.toDigits_ne_nil (n := n) (b := 10))
    refine ⟨c, rest, hrest, ?_⟩
    rintro rfl
    have hdigit : '='.isDigit = true := isDigit_of_mem_toDigits (n := n) (by simp [hrest])
    cases hdigit
  unfold fixedPoint
  split
  next => exact hdigits
  next => exact hdigits.append _

theorem Readable.isLegible {digits places : Nat} (h : Readable digits places) :
    (readNumeral digits places).IsLegible := by
  unfold Value.IsLegible
  rw [text_readNumeral h]
  exact ⟨spells_fixedPoint digits places, opens_fixedPoint digits places⟩

theorem isLegible_boolean (b : Bool) : (Value.boolean b).IsLegible := by
  cases b with
  | true =>
      have hword := isWord_of_all "true" (by decide)
      exact ⟨spells_word hword, hword.opens⟩
  | false =>
      have hword := isWord_of_all "false" (by decide)
      exact ⟨spells_word hword, hword.opens⟩

theorem isLegible_signed (negative : Bool) {d : Directive} (h : d.IsLegible) :
    (Directive.signed negative d).IsLegible := by
  cases negative with
  | false => exact h
  | true => exact .unary .negative h

/-- The value is no string. -/
def Value.IsUnquoted : Value → Prop
  | string _ => False
  | _ => True

theorem isLegible_reread {v : Value} (h : v.IsUnquoted) : v.reread.IsLegible := by
  cases v with
  | integer n => exact isLegible_signed _ (.constant (Readable.integer n).isLegible)
  | float x =>
      cases x with
      | finite negative rank => exact isLegible_signed _ (.constant (Readable.ofRank rank).isLegible)
      | infinity negative =>
          have hword := isWord_of_all "inf" (by decide)
          exact isLegible_signed _ (.column hword (by decide))
      | nan =>
          have hword := isWord_of_all "NaN" (by decide)
          exact .column hword (by decide)
  | decimal d => exact isLegible_signed _ (.constant (Readable.ofDecimal d).isLegible)
  | string s => exact h.elim
  | boolean b => exact .constant (isLegible_boolean b)

/-! ## Trees -/

namespace Directive

mutual

/-- The tree with every constant replaced by what its text is read as. -/
def reread : Directive → Directive
  | constant value => value.reread
  | call name arguments => call name (rereadAll arguments)
  | group inner => group inner.reread
  | unary op operand => unary op operand.reread
  | binary op left right => binary op left.reread right.reread
  | d => d

def rereadAll : List Directive → List Directive
  | [] => []
  | d :: rest => d.reread :: rereadAll rest

end

theorem rereadAll_eq_map (ds : List Directive) : rereadAll ds = ds.map reread := by
  induction ds with
  | nil => rw [rereadAll, List.map_nil]
  | cons d ds ih => rw [rereadAll, ih, List.map_cons]

variable {property : Value → Prop} {d : Directive}

theorem Worded.reread (h : d.Worded property) (hproperty : ∀ v, property v → v.IsUnquoted) :
    d.reread.IsLegible := by
  induction h with
  | column hword hname => exact .column hword hname
  | constant h => exact isLegible_reread (hproperty _ h)
  | @call name arguments hword hname h ih =>
      rw [Directive.reread, rereadAll_eq_map]
      refine .call hword hname ?_
      intro e he
      obtain ⟨d, hd, rfl⟩ := List.mem_map.1 he
      exact ih d hd
  | group h ih =>
      rw [Directive.reread]
      exact .group ih
  | unary op h ih =>
      rw [Directive.reread]
      exact .unary op ih
  | binary op ha hb iha ihb =>
      rw [Directive.reread]
      exact .binary op iha ihb

/-- The text of a tree is kept if those of its constants are. -/
theorem Worded.render_reread (h : d.Worded property) {language : Language}
    (hproperty : ∀ v, property v → v.reread.render language = v.text) :
    d.reread.render language = d.render language := by
  induction h with
  | column hword hname => rfl
  | constant h =>
      rw [Directive.reread, hproperty _ h, render]
  | @call name arguments hword hname h ih =>
      have harguments : (arguments.map Directive.reread).map (render language) =
          arguments.map (render language) := by
        rw [List.map_map]
        exact List.map_congr_left ih
      rw [Directive.reread, rereadAll_eq_map, render, renderAll_eq_map, harguments, render,
        renderAll_eq_map]
  | group h ih => rw [Directive.reread, render, ih, render]
  | unary op h ih => rw [Directive.reread, render, ih, render]
  | binary op ha hb iha ihb => rw [Directive.reread, render, iha, ihb, render]

theorem Worded.extend {a operand : Directive} {op : BinaryOperator} (ha : a.Worded property)
    (hoperand : operand.Worded property) : (a.extend op operand).Worded property := by
  induction a, op, operand using Directive.extend.induct with
  | case1 looser a b op operand hlooser ih =>
      rw [Directive.extend, if_pos hlooser]
      cases ha with
      | binary _ ha hb => exact .binary looser ha (ih hb hoperand)
  | case2 looser a b op operand hlooser =>
      rw [Directive.extend, if_neg hlooser]
      exact .binary op ha hoperand
  | case3 a op operand hbinary =>
      rw [Directive.extend]
      · exact .binary op ha hoperand
      · exact hbinary

theorem Worded.join {a b : Directive} {op : BinaryOperator} (ha : a.Worded property)
    (hb : b.Worded property) : (a.join op b).Worded property := by
  induction b using Directive.join.induct with
  | case1 next b c ih =>
      rw [Directive.join]
      cases hb with
      | binary _ hb hc => exact (ih hb).extend hc
  | case2 b hbinary =>
      rw [Directive.join]
      · exact ha.extend hb
      · exact hbinary

theorem Worded.lead (op : UnaryOperator) (h : d.Worded property) :
    (d.lead op).Worded property := by
  induction d using Directive.lead.induct with
  | case1 next a b ih =>
      rw [Directive.lead]
      cases h with
      | binary _ ha hb => exact .binary next (ih ha) hb
  | case2 d hbinary =>
      rw [Directive.lead]
      · exact .unary op h
      · exact hbinary

theorem Worded.regroup (h : d.Worded property) : d.regroup.Worded property := by
  induction h with
  | column hword hname => exact .column hword hname
  | constant h => exact .constant h
  | @call name arguments hword hname h ih =>
      rw [Directive.regroup, regroupAll_eq_map]
      refine .call hword hname ?_
      intro e he
      obtain ⟨d, hd, rfl⟩ := List.mem_map.1 he
      exact ih d hd
  | group h ih =>
      rw [Directive.regroup]
      exact .group ih
  | unary op h ih =>
      rw [Directive.regroup]
      exact ih.lead op
  | binary op ha hb iha ihb =>
      rw [Directive.regroup]
      exact iha.join ihb

/-! ## Calls -/

theorem extend_ne_call (a operand : Directive) (op : BinaryOperator) (name : String)
    (arguments : List Directive) : a.extend op operand ≠ call name arguments := by
  cases a with
  | binary looser a b =>
      rw [extend]
      split <;> exact Directive.noConfusion
  | _ => exact Directive.noConfusion

theorem join_ne_call (a b : Directive) (op : BinaryOperator) (name : String)
    (arguments : List Directive) : a.join op b ≠ call name arguments := by
  cases b with
  | binary next b c =>
      rw [join]
      exact extend_ne_call _ _ _ _ _
  | _ => exact extend_ne_call _ _ _ _ _

theorem lead_ne_call (op : UnaryOperator) (name : String) (arguments : List Directive) :
    d.lead op ≠ call name arguments := by
  cases d <;> exact Directive.noConfusion

theorem regroup_eq_call {name : String} {arguments : List Directive}
    (h : d.regroup = call name arguments) :
    ∃ ds, d = call name ds ∧ arguments = ds.map regroup := by
  cases d with
  | call name' ds =>
      rw [regroup, regroupAll_eq_map] at h
      cases h
      exact ⟨ds, rfl, rfl⟩
  | unary op operand =>
      rw [regroup] at h
      exact (lead_ne_call op _ _ h).elim
  | binary op a b =>
      rw [regroup] at h
      exact (join_ne_call _ _ _ _ _ h).elim
  | _ => cases h

theorem reread_ne_call (v : Value) (name : String) (arguments : List Directive) :
    v.reread ≠ call name arguments := by
  have hsigned {negative : Bool} {d : Directive} (hd : d ≠ call name arguments) :
      signed negative d ≠ call name arguments := by
    cases negative with
    | false => exact hd
    | true => exact Directive.noConfusion
  cases v with
  | float x =>
      cases x with
      | nan => exact Directive.noConfusion
      | _ => exact hsigned Directive.noConfusion
  | integer | decimal => exact hsigned Directive.noConfusion
  | string | boolean => exact Directive.noConfusion

theorem reread_eq_call {name : String} {arguments : List Directive}
    (h : d.reread = call name arguments) :
    ∃ ds, d = call name ds ∧ arguments = ds.map reread := by
  cases d with
  | call name' ds =>
      rw [reread, rereadAll_eq_map] at h
      cases h
      exact ⟨ds, rfl, rfl⟩
  | constant v => exact (reread_ne_call v _ _ h).elim
  | _ => cases h

/-- Neither change makes a call of what was none. -/
theorem isClauseCall_of_reread_regroup (h : d.reread.regroup.IsClauseCall) : d.IsClauseCall := by
  cases hcall : d.reread.regroup with
  | call name arguments =>
      rw [hcall] at h
      obtain ⟨ds, hds, rfl⟩ := regroup_eq_call hcall
      obtain ⟨es, rfl, rfl⟩ := reread_eq_call hds
      refine ⟨h.1, ?_⟩
      rintro rfl
      exact h.2 rfl
  | _ =>
      rw [hcall] at h
      exact h.elim

end Directive

end QueryNotation
