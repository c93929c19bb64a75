import QueryNotation.Proofs.Grammar
import QueryNotation.Proofs.TokenPassing

/-!
# What the readers of expressions find

On the tokens of an expression the readers return its tree if its cost
fits into the room, and are cut off by the nesting limit if it does not.
There is no third outcome.

A chain is left-associative and read from the left, so the induction on a
derivation cannot look at a whole chain at once. It compares reading the
chain so far with reading on from its tree: the operators on the spine of
the tree are the levels that have been used up by then.
-/

namespace QueryNotation

open BinaryOperator

/-- The token cannot be taken into an expression of the level. -/
def Token.Follows (level : Nat) (t : Token) : Prop :=
  t ≠ .symbol .openParen ∧ ∀ op, ofToken? t = some op → level < op.level

/-- What is neither an operator nor an opening parenthesis follows every expression. -/
theorem Token.follows_of_ofToken?_eq_none {t : Token} {level : Nat} (h : ofToken? t = none)
    (hopen : t ≠ .symbol .openParen) : t.Follows level := by
  refine ⟨hopen, ?_⟩
  intro op hop
  rw [h] at hop
  cases hop

theorem Token.Follows.mono {t : Token} {m n : Nat} (h : t.Follows n) (hmn : m ≤ n) :
    t.Follows m :=
  ⟨h.1, fun op hop => Nat.lt_of_le_of_lt hmn (h.2 op hop)⟩

theorem Token.Follows.atLevel?_eq_none {t : Token} {level : Nat} (h : t.Follows level) :
    atLevel? level t = none := by
  cases hop : atLevel? level t with
  | none => rfl
  | some op =>
      obtain ⟨htoken, hlevel⟩ := atLevel?_eq_some_iff.1 hop
      exact absurd (h.2 op htoken) (by omega)

/-- An operator follows the expressions that are tighter than it. -/
theorem Token.follows_of_atLevel? {t : Token} {level : Nat} {op : BinaryOperator}
    (h : atLevel? (level + 1) t = some op) : t.Follows level := by
  obtain ⟨htoken, hlevel⟩ := atLevel?_eq_some_iff.1 h
  refine ⟨?_, ?_⟩
  · rintro rfl
    cases htoken
  · intro op' hop'
    cases htoken.symm.trans hop'
    omega

namespace Reader

variable {s s' : ReaderState} {room level : Nat} {ts : List Token} {d : Directive}

/-- Reading the tokens at a level leads to the tree or, above the level of
operands, to reading on from the tree. -/
def Finds : Nat → List Token → Directive → Prop
  | 0, ts, d => ∀ ⦃room : Nat⦄ ⦃s s' : ReaderState⦄, Passes s ts s' → s'.token.Follows 0 →
      LeadsTo room d.cost (chain (deeper room) 0 s) (.ok d s')
  | level + 1, ts, d => ∀ ⦃room : Nat⦄ ⦃s s' : ReaderState⦄, Passes s ts s' →
      s'.token.Follows level → LeadsTo room d.cost
        ((chain (deeper room) level >>= chainRest (deeper room) (level + 1)) s)
        (chainRest (deeper (room - d.spine (level + 1))) (level + 1) d
          (s'.atDepth (s.depth + d.spine (level + 1))))

/-- Before a token that cannot be taken in, the tree is the result. -/
theorem Finds.chain (h : Finds level ts d) (room : Nat) (hpass : Passes s ts s')
    (hfollow : s'.token.Follows level) :
    LeadsTo room d.cost (chain (deeper room) level s) (.ok d s') := by
  cases level with
  | zero => exact h hpass hfollow
  | succ level =>
      have hbody := @h room s s' hpass (hfollow.mono (Nat.le_succ level))
      have hnone : atLevel? (level + 1) (s'.atDepth (s.depth + d.spine (level + 1))).token = none :=
        hfollow.atLevel?_eq_none
      rw [chainRest_of_none hnone] at hbody
      have hrestored := hbody.restoringDepth
      rwa [ReaderState.atDepth_atDepth, ReaderState.atDepth_of_depth_eq hpass.depth_eq] at hrestored

/-- An inner expression, one level deeper. -/
theorem Finds.inner (h : Finds level ts d) (hpass : Passes s ts s')
    (hfollow : s'.token.Follows level) :
    LeadsTo room (1 + d.cost)
      (restoringDepth (descend (deeper room) fun levels => levels.chain level) s) (.ok d s') := by
  have hdescend : LeadsTo room (d.cost + 1)
      (descend (deeper room) (fun levels => levels.chain level) s)
      (.ok d (s'.atDepth (s.depth + 1))) := by
    refine LeadsTo.descend fun r hr => ?_
    rw [levels_eq]
    exact h.chain r (hpass.atDepth _) hfollow
  have hrestored := hdescend.restoringDepth
  rwa [ReaderState.atDepth_atDepth, ReaderState.atDepth_of_depth_eq hpass.depth_eq,
    Nat.add_comm] at hrestored

theorem Passes.startsOperand {us : List Token} (hpass : Passes s (ts ++ us) s')
    (h : Derives level ts d) : s.token.StartsOperand := by
  obtain ⟨t, us, rfl, ht⟩ := h.startsOperand
  exact hpass.cons_inv.1 ▸ ht

theorem arguments_finds {parts : List (List Token × Directive)} (hjoined : CommaJoined parts ts)
    (hparts : ∀ p ∈ parts, Derives loosest p.1 p.2) (hfinds : ∀ p ∈ parts, Finds loosest p.1 p.2)
    {left : List Char} (hleft : parts.length ≤ left.length)
    (hpass : Passes s (ts ++ [.symbol .closeParen]) s') :
    LeadsTo room (Directive.largestCost (parts.map (·.2)))
      (arguments (levels room) left s) (.ok (parts.map (·.2)) s') := by
  induction hjoined generalizing s left with
  | nil =>
      obtain ⟨hclose, s₁, hadvance, hnil⟩ := hpass.cons_inv
      cases hnil
      rw [arguments_of_close hclose, bind_of_ok hadvance]
      exact .refl room _
  | last p =>
      obtain ⟨hp, -⟩ := List.forall_mem_cons.1 hparts
      obtain ⟨s₁, hfirst, hend⟩ := hpass.append_inv
      obtain ⟨hclose, s₂, hadvance, hnil⟩ := hend.cons_inv
      cases hnil
      have hne := (hpass.startsOperand hp).ne_symbol (s := .closeParen) (by simp)
      have hfollow : s₁.token.Follows loosest := by
        rw [hclose]
        exact Token.follows_of_ofToken?_eq_none rfl (by simp)
      obtain ⟨c, left, rfl⟩ := List.exists_cons_of_length_pos hleft
      rw [arguments_of_ne hne, levels_eq]
      refine ((hfinds p (by simp)).chain room hfirst hfollow).bind fun _ => ?_
      have hrest : arguments (atDepth (deeper room)) left s₁ = .ok [] s' := by
        rw [arguments_of_close hclose, bind_of_ok hadvance]
        rfl
      rw [bind_of_ok (separator_of_close hclose)]
      dsimp only
      rw [bind_of_ok hrest]
      exact .refl room _
  | @cons ps us p h ih =>
      obtain ⟨hp, hps⟩ := List.forall_mem_cons.1 hparts
      rw [List.append_assoc] at hpass
      obtain ⟨s₁, hfirst, hend⟩ := hpass.append_inv
      obtain ⟨hcomma, s₂, hadvance, hrest⟩ := hend.cons_inv
      have hne := (hpass.startsOperand hp).ne_symbol (s := .closeParen) (by simp)
      have hfollow : s₁.token.Follows loosest := by
        rw [hcomma]
        exact Token.follows_of_ofToken?_eq_none rfl (by simp)
      have hseparator : separator s₁ = .ok () s₂ := by
        rw [separator_of_ne (by simp [hcomma]), expect_of_eq hcomma, hadvance]
      obtain ⟨c, left, rfl⟩ := List.exists_cons_of_length_pos (Nat.lt_of_lt_of_le (Nat.succ_pos _) hleft)
      have harguments := ih hps (List.forall_mem_cons.1 hfinds).2 (Nat.le_of_succ_le_succ hleft) hrest
      rw [levels_eq] at harguments
      rw [arguments_of_ne hne, levels_eq]
      refine ((hfinds p (by simp)).chain room hfirst hfollow).bind fun _ => ?_
      rw [bind_of_ok hseparator]
      exact harguments.bind_ok rfl

/-- The arguments of a call, one level deeper. Each of them and each comma
takes a character of the text ahead, so the reader does not stop early. -/
theorem callArguments_finds {parts : List (List Token × Directive)}
    (hjoined : CommaJoined parts ts) (hparts : ∀ p ∈ parts, Derives loosest p.1 p.2)
    (hfinds : ∀ p ∈ parts, Finds loosest p.1 p.2)
    (hpass : Passes s (ts ++ [.symbol .closeParen]) s') :
    LeadsTo room (1 + Directive.largestCost (parts.map (·.2)))
      (restoringDepth (descend (deeper room) callArguments) s) (.ok (parts.map (·.2)) s') := by
  have hleft : parts.length ≤ s.cursor.ahead.length := by
    obtain ⟨s₁, hpass₁, hend⟩ := hpass.append_inv
    have hmem : Token.endOfText ∉ ts :=
      hjoined.notMem (by simp) fun p hp => (hparts p hp).endOfText_notMem
    have h₁ := hpass₁.length_le hmem (by simp [hend.cons_inv.1])
    have h₂ := hjoined.length_le hparts
    omega
  have hdescend : LeadsTo room (Directive.largestCost (parts.map (·.2)) + 1)
      (descend (deeper room) callArguments s)
      (.ok (parts.map (·.2)) (s'.atDepth (s.depth + 1))) := by
    refine LeadsTo.descend fun r hr => ?_
    rw [callArguments, get_bind]
    exact arguments_finds hjoined hparts hfinds hleft (hpass.atDepth _)
  have hrestored := hdescend.restoringDepth
  rwa [ReaderState.atDepth_atDepth, ReaderState.atDepth_of_depth_eq hpass.depth_eq,
    Nat.add_comm] at hrestored

/-- From a tree to a longer chain: the operator takes one level more than
those on the spine before it. -/
theorem LeadsTo.trans {α : Type} {m n k : Nat}
    {run middle result : EStateM.Result ReadError ReaderState α}
    (h₁ : LeadsTo room m run middle) (hm : n ≤ m)
    (h₂ : m ≤ room → LeadsTo (room - n) k middle result) :
    LeadsTo room (max m (n + k)) run result := by
  constructor
  · intro h
    have hle : m ≤ room := by omega
    rw [h₁.1 hle]
    exact (h₂ hle).1 (by omega)
  · intro h
    by_cases hle : m ≤ room
    · rw [h₁.1 hle]
      exact (h₂ hle).2 (by omega)
    · exact h₁.2 (by omega)

theorem finds_of_primary {ts : List Token} (hoperator : ∀ t, ts.head? = some t →
      UnaryOperator.ofToken? t = none) (hts : ts ≠ [])
    (h : ∀ ⦃room : Nat⦄ ⦃s s' : ReaderState⦄, Passes s ts s' → s'.token.Follows 0 →
      LeadsTo room d.cost (primary (deeper room) s) (.ok d s')) : Finds 0 ts d := by
  intro room s s' hpass hfollow
  obtain ⟨t, ts, rfl⟩ := List.exists_cons_of_ne_nil hts
  obtain ⟨ht, -⟩ := hpass.cons_inv
  have hnone : UnaryOperator.ofToken? s.token = none := by
    rw [ht]
    exact hoperator t rfl
  rw [show chain (deeper room) 0 s = prefixed (deeper room) s from rfl, prefixed_of_none hnone]
  exact h hpass hfollow

theorem Passes.take_single {t : Token} (h : Passes s [t] s') : s.token = t ∧ take s = .ok () s' := by
  obtain ⟨ht, s₁, hadvance, hnil⟩ := h.cons_inv
  cases hnil
  exact ⟨ht, take_eq_ok_iff.2 hadvance⟩

theorem derives_finds (h : Derives level ts d) : Finds level ts d := by
  induction h with
  | literal value =>
      refine finds_of_primary (by simp [UnaryOperator.ofToken?]) (by simp) ?_
      intro room s s' hpass hfollow
      obtain ⟨ht, htake⟩ := hpass.take_single
      rw [primary_of_literal ht, bind_of_ok htake]
      exact .refl room _
  | column name =>
      refine finds_of_primary (by simp [UnaryOperator.ofToken?]) (by simp) ?_
      intro room s s' hpass hfollow
      obtain ⟨ht, htake⟩ := hpass.take_single
      rw [primary_of_column ht htake hfollow.1]
      exact .refl room _
  | andColumn =>
      refine finds_of_primary (by simp [UnaryOperator.ofToken?]) (by simp) ?_
      intro room s s' hpass hfollow
      obtain ⟨ht, htake⟩ := hpass.take_single
      rw [primary_of_and ht, bind_of_ok htake]
      exact .refl room _
  | orColumn =>
      refine finds_of_primary (by simp [UnaryOperator.ofToken?]) (by simp) ?_
      intro room s s' hpass hfollow
      obtain ⟨ht, htake⟩ := hpass.take_single
      rw [primary_of_or ht, bind_of_ok htake]
      exact .refl room _
  | call name parts hjoined hparts ih =>
      refine finds_of_primary (by simp [UnaryOperator.ofToken?]) (by simp) ?_
      intro room s s' hpass hfollow
      obtain ⟨ht, s₁, hname, hpass⟩ := hpass.cons_inv
      obtain ⟨hopen, s₂, hadvance, hpass⟩ := hpass.cons_inv
      rw [primary_of_call ht (take_eq_ok_iff.2 hname) hopen, bind_of_ok hadvance]
      exact (callArguments_finds hjoined hparts ih hpass).bind_ok rfl
  | group h ih =>
      refine finds_of_primary (by simp [UnaryOperator.ofToken?]) (by simp) ?_
      intro room s s' hpass hfollow
      obtain ⟨ht, s₁, hopen, hpass⟩ := hpass.cons_inv
      obtain ⟨s₂, hinner, hend⟩ := hpass.append_inv
      obtain ⟨hclose, s₃, hadvance, hnil⟩ := hend.cons_inv
      cases hnil
      have hfollow₂ : s₂.token.Follows loosest := by
        rw [hclose]
        exact Token.follows_of_ofToken?_eq_none rfl (by simp)
      rw [primary_of_openParen ht, bind_of_ok (take_eq_ok_iff.2 hopen)]
      refine (ih.inner hinner hfollow₂).bind_ok ?_
      rw [bind_of_ok ((expect_of_eq hclose).trans hadvance)]
      rfl
  | unary hop h ih =>
      intro room s s' hpass hfollow
      obtain ⟨ht, s₁, hadvance, hpass⟩ := hpass.cons_inv
      rw [show chain (deeper room) 0 s = prefixed (deeper room) s from rfl,
        prefixed_of_some (ht ▸ hop), bind_of_ok hadvance]
      exact (ih.inner hpass hfollow).bind_ok rfl
  | @lift level ts d h ih =>
      intro room s s' hpass hfollow
      rw [h.spine_eq_zero (Nat.lt_succ_self level)]
      have hbind := (ih.chain room hpass hfollow).bind
        (f := chainRest (deeper room) (level + 1)) fun _ => .refl room _
      rw [Nat.max_zero] at hbind
      have hdepth : s'.atDepth (s.depth + 0) = s' :=
        ReaderState.atDepth_of_depth_eq hpass.depth_eq
      rwa [Nat.sub_zero, hdepth]
  | @binary level t op ts us a b ha hop hb iha ihb =>
      intro room s s' hpass hfollow
      obtain ⟨s₁, hleft, hpass⟩ := hpass.append_inv
      obtain ⟨ht, s₂, hadvance, hright⟩ := hpass.cons_inv
      have hlevel := (atLevel?_eq_some_iff.1 hop).2
      have hspine : (Directive.binary op a b).spine (level + 1) = a.spine (level + 1) + 1 :=
        if_pos hlevel
      generalize hn : a.spine (level + 1) = n at hspine
      have hcost : (Directive.binary op a b).cost = max a.cost (n + (1 + b.cost)) := by
        rw [Directive.cost, hlevel, hn]
        omega
      rw [hspine, hcost]
      have hchain := @iha room s s₁ hleft (ht ▸ Token.follows_of_atLevel? hop)
      rw [hn] at hchain
      refine hchain.trans (hn ▸ a.spine_le_cost _) fun hroom => ?_
      have hop₁ : atLevel? (level + 1) (s₁.atDepth (s.depth + n)).token = some op := ht ▸ hop
      rw [chainRest_of_some hop₁, bind_of_ok (advance_atDepth _ hadvance), Nat.add_comm 1]
      refine LeadsTo.descend fun r hr => ?_
      rw [levels_eq]
      have hb' := (ihb.chain r (hright.atDepth (s.depth + n + 1)) hfollow).bind
        (f := fun right => (atDepth (deeper r)).chainRest (level + 1) (.binary op a right))
        fun _ => .refl r _
      rw [Nat.max_zero] at hb'
      rw [show room - (n + 1) = r by omega]
      exact hb'

end Reader

end QueryNotation
