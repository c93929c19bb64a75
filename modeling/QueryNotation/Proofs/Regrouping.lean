import QueryNotation.Proofs.Grammar

/-!
# Regrouping a tree of operators

A tree may have been built with no regard to precedence, and its text has
no parentheses to show this. Its operators and operands form a sequence
from left to right, and there is one tree with the same sequence that
follows precedence. It is built from the left: an operator with its right
operand is put at the right end of a tree, below the looser operators
there. Whatever depends on the sequence alone is the same for both trees.
-/

namespace QueryNotation

open BinaryOperator

/-- The trees that follow precedence, at each level. -/
inductive Fits : Nat → Directive → Prop where
  | column {level : Nat} (name : String) : Fits level (.column name)
  | constant {level : Nat} (value : Value) : Fits level (.constant value)
  | call {level : Nat} (name : String) {arguments : List Directive}
      (h : ∀ d ∈ arguments, Fits loosest d) : Fits level (.call name arguments)
  | group {level : Nat} {d : Directive} (h : Fits loosest d) : Fits level (.group d)
  | unary {level : Nat} (op : UnaryOperator) {d : Directive} (h : Fits 0 d) :
      Fits level (.unary op d)
  | binary {level : Nat} {op : BinaryOperator} {a b : Directive} (hlevel : op.level ≤ level)
      (ha : Fits op.level a) (hb : Fits (op.level - 1) b) : Fits level (.binary op a b)

/-- The expressions: no clauses and no markers, at any depth. -/
inductive Directive.IsExpression : Directive → Prop where
  | column (name : String) : IsExpression (.column name)
  | constant (value : Value) : IsExpression (.constant value)
  | call (name : String) {arguments : List Directive} (h : ∀ d ∈ arguments, IsExpression d) :
      IsExpression (.call name arguments)
  | group {d : Directive} (h : IsExpression d) : IsExpression (.group d)
  | unary (op : UnaryOperator) {d : Directive} (h : IsExpression d) : IsExpression (.unary op d)
  | binary (op : BinaryOperator) {a b : Directive} (ha : IsExpression a) (hb : IsExpression b) :
      IsExpression (.binary op a b)

namespace Directive

/-- Puts an operator and its right operand at the right end of a tree. -/
def extend : Directive → BinaryOperator → Directive → Directive
  | binary looser a b, op, operand =>
    if op.level < looser.level then binary looser a (b.extend op operand)
    else binary op (binary looser a b) operand
  | a, op, operand => binary op a operand

/-- Joins two trees by an operator between their sequences. -/
def join (a : Directive) (op : BinaryOperator) : Directive → Directive
  | binary next b c => (a.join op b).extend next c
  | b => a.extend op b

/-- Puts an operator in front of the leftmost operand of a tree. -/
def lead (op : UnaryOperator) : Directive → Directive
  | binary next a b => binary next (lead op a) b
  | a => unary op a

mutual

/-- The tree with the same sequence that follows precedence. -/
def regroup : Directive → Directive
  | call name arguments => call name (regroupAll arguments)
  | group inner => group inner.regroup
  | unary op operand => lead op operand.regroup
  | binary op left right => join left.regroup op right.regroup
  | d => d

def regroupAll : List Directive → List Directive
  | [] => []
  | d :: rest => d.regroup :: regroupAll rest

end

theorem regroupAll_eq_map (ds : List Directive) : regroupAll ds = ds.map regroup := by
  induction ds with
  | nil => rw [regroupAll, List.map_nil]
  | cons d ds ih => rw [regroupAll, ih, List.map_cons]

end Directive

/-! ## The result follows precedence -/

theorem Fits.mono {m n : Nat} {d : Directive} (h : Fits m d) (hmn : m ≤ n) : Fits n d := by
  cases h with
  | column name => exact .column name
  | constant value => exact .constant value
  | call name h => exact .call name h
  | group h => exact .group h
  | unary op h => exact .unary op h
  | binary hlevel ha hb => exact .binary (Nat.le_trans hlevel hmn) ha hb

theorem Fits.isExpression {m : Nat} {d : Directive} (h : Fits m d) : d.IsExpression := by
  induction h with
  | column name => exact .column name
  | constant value => exact .constant value
  | call name h ih => exact .call name ih
  | group h ih => exact .group ih
  | unary op h ih => exact .unary op ih
  | binary hlevel ha hb iha ihb => exact .binary _ iha ihb

/-- Without an operator at its root a tree follows precedence at all levels. -/
theorem Fits.of_not_binary {m : Nat} {d : Directive} (h : Fits m d)
    (hd : ∀ op a b, d = .binary op a b → False) (n : Nat) : Fits n d := by
  cases h with
  | column name => exact .column name
  | constant value => exact .constant value
  | call name h => exact .call name h
  | group h => exact .group h
  | unary op h => exact .unary op h
  | binary hlevel ha hb => exact (hd _ _ _ rfl).elim

theorem fits_extend {level : Nat} {a operand : Directive} {op : BinaryOperator}
    (ha : Fits level a) (hoperand : Fits (op.level - 1) operand) :
    Fits (max level op.level) (a.extend op operand) := by
  induction a, op, operand using Directive.extend.induct generalizing level with
  | case1 looser a b op operand hlooser ih =>
      rw [Directive.extend, if_pos hlooser]
      cases ha with
      | binary hlevel ha hb =>
          have hright := (ih hb hoperand).mono (n := looser.level - 1) (by omega)
          exact .binary (Nat.le_trans hlevel (Nat.le_max_left _ _)) ha hright
  | case2 looser a b op operand hlooser =>
      rw [Directive.extend, if_neg hlooser]
      cases ha with
      | binary hlevel ha hb =>
          have hleft : Fits op.level (.binary looser a b) := .binary (by omega) ha hb
          exact .binary (Nat.le_max_right _ _) hleft hoperand
  | case3 a op operand hbinary =>
      rw [Directive.extend]
      · exact .binary (Nat.le_max_right _ _) (ha.of_not_binary hbinary _) hoperand
      · exact hbinary

theorem fits_join {a b : Directive} {op : BinaryOperator} (ha : Fits loosest a)
    (hb : Fits loosest b) : Fits loosest (a.join op b) := by
  induction b using Directive.join.induct with
  | case1 next b c ih =>
      rw [Directive.join]
      cases hb with
      | binary hlevel hb hc =>
          have hextend := fits_extend (ih (hb.mono hlevel)) hc
          rwa [Nat.max_eq_left hlevel] at hextend
  | case2 b hbinary =>
      rw [Directive.join]
      · have hextend := fits_extend ha (hb.of_not_binary hbinary (op.level - 1))
        rwa [Nat.max_eq_left op.level_le_loosest] at hextend
      · exact hbinary

theorem fits_lead {level : Nat} {d : Directive} (op : UnaryOperator) (h : Fits level d) :
    Fits level (d.lead op) := by
  induction d using Directive.lead.induct generalizing level with
  | case1 next a b ih =>
      rw [Directive.lead]
      cases h with
      | binary hlevel ha hb => exact .binary hlevel (ih ha) hb
  | case2 d hbinary =>
      rw [Directive.lead]
      · exact .unary op (h.of_not_binary hbinary 0)
      · exact hbinary

theorem fits_regroup {d : Directive} (h : d.IsExpression) : Fits loosest d.regroup := by
  induction h with
  | column name => exact .column name
  | constant value => exact .constant value
  | @call name arguments h ih =>
      rw [Directive.regroup, Directive.regroupAll_eq_map]
      refine .call name fun e he => ?_
      obtain ⟨d, hd, rfl⟩ := List.mem_map.1 he
      exact ih d hd
  | group h ih =>
      rw [Directive.regroup]
      exact .group ih
  | unary op h ih =>
      rw [Directive.regroup]
      exact fits_lead op ih
  | binary op ha hb iha ihb =>
      rw [Directive.regroup]
      exact fits_join iha ihb

/-! ## A tree that follows precedence is left as it is -/

theorem extend_of_fits {a operand : Directive} {op : BinaryOperator} (ha : Fits op.level a) :
    a.extend op operand = .binary op a operand := by
  cases ha with
  | binary hlevel ha hb => rw [Directive.extend, if_neg (by omega)]
  | _ => rfl

theorem join_of_fits {a b : Directive} {op : BinaryOperator} (ha : Fits op.level a)
    (hb : Fits (op.level - 1) b) : a.join op b = .binary op a b := by
  induction b using Directive.join.induct with
  | case1 next b c ih =>
      cases hb with
      | binary hlevel hb hc =>
          have hlooser : next.level < op.level := by
            have := next.level_pos
            omega
          rw [Directive.join, ih (hb.mono hlevel), Directive.extend, if_pos hlooser,
            extend_of_fits hb]
  | case2 b hbinary =>
      rw [Directive.join]
      · exact extend_of_fits ha
      · exact hbinary

theorem lead_of_fits {d : Directive} (op : UnaryOperator) (h : Fits 0 d) :
    d.lead op = .unary op d := by
  cases h with
  | @binary _ next a b hlevel ha hb =>
      have := next.level_pos
      omega
  | _ => rfl

theorem regroup_of_fits {level : Nat} {d : Directive} (h : Fits level d) : d.regroup = d := by
  induction h with
  | column name => rfl
  | constant value => rfl
  | @call level name arguments h ih =>
      rw [Directive.regroup, Directive.regroupAll_eq_map, List.map_congr_left ih, List.map_id']
  | group h ih => rw [Directive.regroup, ih]
  | unary op h ih => rw [Directive.regroup, ih, lead_of_fits op h]
  | binary hlevel ha hb iha ihb => rw [Directive.regroup, iha, ihb, join_of_fits ha hb]

/-! ## What depends on the sequence alone -/

/-- A view of trees that goes through operators and operands from left to
right, and knows groups and calls by the views of what is in them. -/
structure IsSequential {α : Type} (view : Directive → List α)
    (before : UnaryOperator → List α) (between : BinaryOperator → List α) : Prop where
  unary : ∀ op d, view (.unary op d) = before op ++ view d
  binary : ∀ op a b, view (.binary op a b) = view a ++ (between op ++ view b)
  group : ∀ a b, view a = view b → view (.group a) = view (.group b)
  call : ∀ name xs ys, xs.map view = ys.map view → view (.call name xs) = view (.call name ys)

section

variable {α : Type} {view : Directive → List α} {before : UnaryOperator → List α}
  {between : BinaryOperator → List α}

namespace IsSequential

theorem extend (h : IsSequential view before between) (a operand : Directive)
    (op : BinaryOperator) :
    view (a.extend op operand) = view a ++ (between op ++ view operand) := by
  induction a, op, operand using Directive.extend.induct with
  | case1 looser a b op operand hlooser ih =>
      rw [Directive.extend, if_pos hlooser, h.binary, ih, h.binary]
      simp only [List.append_assoc]
  | case2 looser a b op operand hlooser => rw [Directive.extend, if_neg hlooser, h.binary]
  | case3 a op operand hbinary =>
      rw [Directive.extend]
      · exact h.binary op a operand
      · exact hbinary

theorem join (h : IsSequential view before between) (a b : Directive) (op : BinaryOperator) :
    view (a.join op b) = view a ++ (between op ++ view b) := by
  induction b using Directive.join.induct with
  | case1 next b c ih =>
      rw [Directive.join, h.extend, ih, h.binary]
      simp only [List.append_assoc]
  | case2 b hbinary =>
      rw [Directive.join]
      · exact h.extend a b op
      · exact hbinary

theorem lead (h : IsSequential view before between) (op : UnaryOperator) (d : Directive) :
    view (d.lead op) = before op ++ view d := by
  induction d using Directive.lead.induct with
  | case1 next a b ih => rw [Directive.lead, h.binary, ih, h.binary, List.append_assoc]
  | case2 d hbinary =>
      rw [Directive.lead]
      · exact h.unary op d
      · exact hbinary

theorem regroup (h : IsSequential view before between) {d : Directive} (hd : d.IsExpression) :
    view d.regroup = view d := by
  induction hd with
  | column name => rfl
  | constant value => rfl
  | @call name arguments hd ih =>
      rw [Directive.regroup, Directive.regroupAll_eq_map]
      apply h.call
      rw [List.map_map]
      exact List.map_congr_left ih
  | group hd ih =>
      rw [Directive.regroup]
      exact h.group _ _ ih
  | unary op hd ih => rw [Directive.regroup, h.lead, ih, h.unary]
  | binary op ha hb iha ihb => rw [Directive.regroup, h.join, iha, ihb, h.binary]

end IsSequential

end

theorem isSequential_render (language : Language) :
    IsSequential (Directive.render language) (fun op => (op.symbol language).toList)
      fun op => (op.symbol language).toList where
  unary op d := by rw [Directive.render]
  binary op a b := by rw [Directive.render, List.append_assoc]
  group a b h := by rw [Directive.render, Directive.render, h]
  call name xs ys h := by
    rw [Directive.render, Directive.render, Directive.renderAll_eq_map,
      Directive.renderAll_eq_map, h]

end QueryNotation
