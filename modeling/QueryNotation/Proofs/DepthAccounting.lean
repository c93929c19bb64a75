import QueryNotation.Proofs.Acceptance

/-!
# The levels that an expression takes

A chain of operators of one level is read from the left, and the reader
goes one level deeper at each operator. So an operand costs its own levels
and one more for each operator before it, and the chain what the most
costly operand does. A reader that has gone down some levels succeeds
exactly when the cost fits into those that are left, and is back at its
depth when it does.
-/

namespace QueryNotation

open BinaryOperator

namespace Directive

/-- The operands of a tree as a chain of operators of the level, from left
to right. A tree without such an operator at its root is one operand. -/
def operands (level : Nat) : Directive → List Directive
  | binary op left right =>
    if op.level = level then left.operands level ++ [right] else [binary op left right]
  | d => [d]

/-- The cost of operands with some operators before the first of them. -/
def chainCost (before : Nat) : List Directive → Nat
  | [] => 0
  | d :: rest => max (before + d.cost) (chainCost (before + 1) rest)

theorem length_operands (level : Nat) (d : Directive) :
    (d.operands level).length = d.spine level + 1 := by
  induction d using spine.induct level with
  | case1 op left right hlevel ih =>
      rw [operands, if_pos hlevel, List.length_append, ih, spine, if_pos hlevel, List.length_singleton]
  | case2 op left right hlevel =>
      rw [operands, if_neg hlevel, spine, if_neg hlevel, List.length_singleton]
  | case3 d hbinary =>
      rw [operands, spine, List.length_singleton]
      all_goals exact hbinary

theorem chainCost_append (before : Nat) (ds : List Directive) (d : Directive) :
    chainCost before (ds ++ [d]) = max (chainCost before ds) (before + ds.length + d.cost) := by
  induction ds generalizing before with
  | nil => rw [List.nil_append, chainCost, chainCost, chainCost, Nat.max_comm, List.length_nil, Nat.add_zero]
  | cons e ds ih =>
      have hbefore : before + 1 + ds.length = before + (ds.length + 1) := by omega
      rw [List.cons_append, chainCost, ih, chainCost, List.length_cons, hbefore, Nat.max_assoc]

/-- The operator before an operand, and those before it, each take a level. -/
theorem cost_eq_chainCost (level : Nat) (d : Directive) :
    d.cost = chainCost 0 (d.operands level) := by
  induction d using operands.induct level with
  | case1 op left right hlevel ih =>
      rw [operands, if_pos hlevel, chainCost_append, ← ih, length_operands, cost, hlevel, Nat.zero_add]
  | case2 op left right hlevel =>
      rw [operands, if_neg hlevel, chainCost, chainCost, Nat.zero_add, Nat.max_zero]
  | case3 d hbinary =>
      rw [operands, chainCost, chainCost, Nat.zero_add, Nat.max_zero]
      exact hbinary

end Directive

/-! ## Outcomes -/

/-- Of a run that either returns or is cut off, each can be told from the cost. -/
theorem outcomes_of_cost {α : Type} {result : Except ReadError α} {a : α} {n : Nat}
    (hok : n ≤ maxDepth → result = .ok a)
    (hdeep : maxDepth < n → ∃ place, result = .error (.tooDeep place)) :
    ((∃ place, result = .error (.tooDeep place)) ↔ maxDepth < n) ∧
      (result = .ok a ↔ n ≤ maxDepth) := by
  by_cases hn : n ≤ maxDepth
  · have hresult := hok hn
    subst hresult
    simp [hn]
  · have hlt : maxDepth < n := Nat.lt_of_not_le hn
    obtain ⟨place, hplace⟩ := hdeep hlt
    subst hplace
    simp [hlt, hn]

namespace Reader

variable {s s' : ReaderState} {ts : List Token} {d : Directive}

theorem LeadsTo.ok_iff {α : Type} {room cost : Nat} {run : EStateM.Result ReadError ReaderState α}
    {a : α} (h : LeadsTo room cost run (.ok a s')) :
    (∃ b s₁, run = .ok b s₁) ↔ cost ≤ room := by
  constructor
  · rintro ⟨b, s₁, rfl⟩
    apply Nat.le_of_not_lt
    intro hcost
    obtain ⟨place, s₂, hs₂⟩ := h.2 hcost
    cases hs₂
  · intro hcost
    exact ⟨a, s', h.1 hcost⟩

/-- An expression up to the end of the text, read at some depth. -/
theorem expression_at_depth (h : Derives loosest ts d) (hpass : Passes s ts s') (hend : s'.AtEnd)
    (hdepth : s.depth ≤ maxDepth) :
    ((∃ e s₁, expression s = .ok e s₁) ↔ s.depth + d.cost ≤ maxDepth) ∧
      (s.depth + d.cost ≤ maxDepth → expression s = .ok d s' ∧ s'.depth = s.depth) ∧
      (maxDepth < s.depth + d.cost → ∃ place s₁, expression s = .error (.tooDeep place) s₁) := by
  have hfollow : s'.token.Follows loosest := hend.1 ▸ follows_endOfText
  have hfinds := expression_finds h hpass hfollow
  have hroom : d.cost ≤ maxDepth - s.depth ↔ s.depth + d.cost ≤ maxDepth := by omega
  refine ⟨hfinds.ok_iff.trans hroom, ?_, ?_⟩
  · intro hcost
    exact ⟨hfinds.1 (hroom.2 hcost), hpass.depth_eq⟩
  · intro hcost
    exact hfinds.2 (by omega)

end Reader

open Reader

/-- Reading is cut off exactly when the cost of an item is above the limit, and
returns otherwise; an expression that is read at some depth is returned exactly
when its cost fits into the levels that are left. The cost of a chain is the
largest of those of its operands, each with the operators before it. -/
theorem tooDeep_iff_cost :
    (∀ level (d : Directive), d.cost = Directive.chainCost 0 (d.operands level)) ∧
    (∀ text ts n d, HasTokens text ts → DerivesItem n ts d →
      ((∃ place, Directive.parse text = .error (.tooDeep place)) ↔ maxDepth < n) ∧
        (Directive.parse text = .ok d ↔ n ≤ maxDepth)) ∧
    (∀ text ts n q, HasTokens text ts → DerivesQuery n ts q →
      ∃ items : List (Nat × List Token × Directive), items.map (·.2.2) = q.directives ∧
        (∀ i ∈ items, DerivesItem i.1 i.2.1 i.2.2 ∧ i.2.1 <:+: ts) ∧
        ((∃ place, Query.parse text = .error (.tooDeep place)) ↔ ∃ i ∈ items, maxDepth < i.1) ∧
        (Query.parse text = .ok q ↔ ∀ i ∈ items, i.1 ≤ maxDepth)) ∧
    (∀ s s' ts d, Derives loosest ts d → Passes s ts s' → s'.AtEnd → s.depth ≤ maxDepth →
      ((∃ e s₁, expression s = .ok e s₁) ↔ s.depth + d.cost ≤ maxDepth) ∧
        (s.depth + d.cost ≤ maxDepth → expression s = .ok d s' ∧ s'.depth = s.depth) ∧
        (maxDepth < s.depth + d.cost → ∃ place s₁, expression s = .error (.tooDeep place) s₁)) := by
  refine ⟨Directive.cost_eq_chainCost, ?_, ?_, fun s s' ts d => expression_at_depth⟩
  · intro text ts n d htext h
    obtain ⟨hok, hdeep⟩ := Directive.parse_of_derives htext h
    exact outcomes_of_cost hok hdeep
  · intro text ts n q htext h
    obtain ⟨hok, hdeep⟩ := Query.parse_of_derives htext h
    obtain ⟨hdeep, hok⟩ := outcomes_of_cost hok hdeep
    cases h with
    | mk table hitems =>
        obtain ⟨items, hdirectives, hderives, hroom⟩ := hitems.exists_parts
        refine ⟨items, ?_, ?_, ?_, ?_⟩
        · rw [hdirectives, Query.directives_appendAll]
          rfl
        · intro i hi
          refine ⟨(hderives i hi).1, (hderives i hi).2.trans ?_⟩
          exact ⟨[.word table, .symbol .openBracket], [.symbol .closeBracket], rfl⟩
        · rw [hdeep, ← Nat.not_le, hroom]
          simp
        · rw [hok, hroom]

/-- A sum whose second operand is in parentheses. -/
def sumText (groups : Nat) : String :=
  String.ofList ('a' :: '+' :: (List.replicate groups '(' ++ 'a' :: List.replicate groups ')'))

theorem derivesItem_sum (groups : Nat) :
    DerivesItem (groups + 1) (.word "a" :: .symbol .plus :: groupedTokens groups)
      (.binary .plus (.column "a") (.grouped groups)) := by
  have hplus : atLevel? 2 (.symbol .plus) = some .plus := rfl
  have hsum := Derives.binary ((Derives.column "a").mono (Nat.zero_le 2)) hplus
    ((derives_grouped groups).mono (Nat.zero_le 1))
  have hitem := DerivesItem.expression (hsum.mono (by decide)) (by simp) (by simp) (.other id)
  have hcost : (Directive.binary .plus (.column "a") (.grouped groups)).cost = groups + 1 := by
    rw [Directive.cost, cost_grouped]
    change max 0 (0 + 1 + groups) = groups + 1
    omega
  exact hcost ▸ hitem

/-- The operator takes the level that 128 groups leave no room for. -/
theorem sumText_at_limit :
    (HasTokens (sumText 127) (.word "a" :: .symbol .plus :: groupedTokens 127) ∧
      HasTokens (sumText 128) (.word "a" :: .symbol .plus :: groupedTokens 128)) ∧
    Directive.parse (sumText 127) = .ok (.binary .plus (.column "a") (.grouped 127)) ∧
    ∃ place, Directive.parse (sumText 128) = .error (.tooDeep place) := by
  have hshallow : HasTokens (sumText 127) (.word "a" :: .symbol .plus :: groupedTokens 127) := by
    rw [hasTokens_iff_lexes, sumText, String.toList_ofList]
    exact lexes_of_atMost (n := 260) (by decide +kernel) (by decide +kernel)
  have hdeep : HasTokens (sumText 128) (.word "a" :: .symbol .plus :: groupedTokens 128) := by
    rw [hasTokens_iff_lexes, sumText, String.toList_ofList]
    exact lexes_of_atMost (n := 260) (by decide +kernel) (by decide +kernel)
  refine ⟨⟨hshallow, hdeep⟩, ?_, ?_⟩
  · exact (tooDeep_iff_cost.2.1 _ _ _ _ hshallow (derivesItem_sum 127)).2.2 (by decide)
  · exact (tooDeep_iff_cost.2.1 _ _ _ _ hdeep (derivesItem_sum 128)).1.2 (by decide)

end QueryNotation
