import QueryNotation.Proofs.QueryAcceptance

/-!
# The grammar decides what is accepted

The grammar is unambiguous, whatever the cost of the trees. The readers
are deterministic, and with enough room they find every tree that the
tokens have. The places of a list of items are told apart by what follows
them. So a text is accepted exactly when it has tokens of the grammar
whose tree is within the nesting limit, and the result is their tree.
-/

namespace QueryNotation

open BinaryOperator

/-! ## Unambiguity -/

theorem ReadAs.unique {e c d : Directive} (h₁ : ReadAs e c) (h₂ : ReadAs e d) : c = d := by
  by_cases he : e.IsClauseCall
  · cases e with
    | call name arguments =>
        have hc := Reader.clauseOfCall_of_readAs he.1 h₁ .start
        rw [Reader.clauseOfCall_of_readAs he.1 h₂] at hc
        cases hc
        rfl
    | _ => exact he.elim
  · rw [h₁.eq_of_not_isClauseCall he, h₂.eq_of_not_isClauseCall he]

namespace Reader

variable {s s₁ s₂ : ReaderState} {ts us : List Token} {m n : Nat}

/-- Two expressions from one state on have the same tree and the same end,
if neither can be read on. -/
theorem derives_unique {d e : Directive} (hd : Derives loosest ts d) (he : Derives loosest us e)
    (hpass₁ : Passes s ts s₁) (hpass₂ : Passes s us s₂) (hfollow₁ : s₁.token.Follows loosest)
    (hfollow₂ : s₂.token.Follows loosest) : d = e ∧ s₁ = s₂ := by
  have h₁ := ((derives_finds hd).chain (max d.cost e.cost) hpass₁ hfollow₁).1
    (Nat.le_max_left _ _)
  have h₂ := ((derives_finds he).chain (max d.cost e.cost) hpass₂ hfollow₂).1
    (Nat.le_max_right _ _)
  rw [h₁] at h₂
  cases h₂
  exact ⟨rfl, rfl⟩

theorem derivesItem_unique {d e : Directive} (hd : DerivesItem m ts d) (he : DerivesItem n us e)
    (hpass₁ : Passes s ts s₁) (hpass₂ : Passes s us s₂) (hfollow₁ : s₁.token.Follows loosest)
    (hfollow₂ : s₂.token.Follows loosest) : m = n ∧ d = e ∧ s₁ = s₂ := by
  -- A marker is known by its first token.
  cases hd with
  | distinct =>
      cases he with
      | distinct => exact ⟨rfl, rfl, hpass₁.unique hpass₂⟩
      | all => exact absurd (hpass₁.cons_inv.1.symm.trans hpass₂.cons_inv.1) (by decide)
      | expression h hdistinct =>
          rw [hpass₂.head? h.ne_nil, hpass₁.cons_inv.1] at hdistinct
          exact (hdistinct rfl).elim
  | all =>
      cases he with
      | distinct => exact absurd (hpass₁.cons_inv.1.symm.trans hpass₂.cons_inv.1) (by decide)
      | all => exact ⟨rfl, rfl, hpass₁.unique hpass₂⟩
      | expression h _ hall =>
          rw [hpass₂.head? h.ne_nil, hpass₁.cons_inv.1] at hall
          exact (hall rfl).elim
  | expression h₁ hdistinct hall hread₁ =>
      rw [hpass₁.head? h₁.ne_nil] at hdistinct hall
      cases he with
      | distinct => exact (hdistinct (congrArg some hpass₂.cons_inv.1)).elim
      | all => exact (hall (congrArg some hpass₂.cons_inv.1)).elim
      | expression h₂ _ _ hread₂ =>
          obtain ⟨rfl, rfl⟩ := derives_unique h₁ h₂ hpass₁ hpass₂ hfollow₁ hfollow₂
          exact ⟨rfl, hread₁.unique hread₂, rfl⟩

/-- The tokens that end a place for an item. -/
def EndsSlot (t : Token) : Prop := t = .symbol .closeBracket ∨ t = .symbol .comma

theorem EndsSlot.follows {t : Token} (h : EndsSlot t) : t.Follows loosest := by
  rcases h with rfl | rfl
  · exact follows_closeBracket
  · exact follows_comma

theorem EndsSlot.not_startsOperand {t : Token} (h : EndsSlot t) : ¬ t.StartsOperand := by
  rcases h with rfl | rfl <;> simp [Token.StartsOperand]

theorem derivesSlot_unique {ds es : List Directive} (hd : DerivesSlot m ts ds)
    (he : DerivesSlot n us es) (hpass₁ : Passes s ts s₁) (hpass₂ : Passes s us s₂)
    (hend₁ : EndsSlot s₁.token) (hend₂ : EndsSlot s₂.token) : m = n ∧ ds = es ∧ s₁ = s₂ := by
  cases hd with
  | empty =>
      cases hpass₁
      cases he with
      | empty =>
          cases hpass₂
          exact ⟨rfl, rfl, rfl⟩
      | item he => exact (hend₁.not_startsOperand (item_startsOperand he hpass₂)).elim
  | item hd =>
      cases he with
      | empty =>
          cases hpass₂
          exact (hend₂.not_startsOperand (item_startsOperand hd hpass₁)).elim
      | item he =>
          obtain ⟨rfl, rfl, rfl⟩ := derivesItem_unique hd he hpass₁ hpass₂ hend₁.follows hend₂.follows
          exact ⟨rfl, rfl, rfl⟩

theorem derivesItems_unique {ds es : List Directive} (hd : DerivesItems m ts ds)
    (he : DerivesItems n us es) (hpass₁ : Passes s ts s₁) (hpass₂ : Passes s us s₂)
    (hend₁ : s₁.token = .symbol .closeBracket) (hend₂ : s₂.token = .symbol .closeBracket) :
    m = n ∧ ds = es := by
  induction hd generalizing s n us es with
  | last hslot₁ =>
      cases he with
      | last hslot₂ =>
          obtain ⟨rfl, rfl, -⟩ :=
            derivesSlot_unique hslot₁ hslot₂ hpass₁ hpass₂ (.inl hend₁) (.inl hend₂)
          exact ⟨rfl, rfl⟩
      | cons hslot₂ he =>
          obtain ⟨s₃, hhere, hrest⟩ := hpass₂.append_inv
          have hcomma := hrest.cons_inv.1
          obtain ⟨-, -, rfl⟩ :=
            derivesSlot_unique hslot₁ hslot₂ hpass₁ hhere (.inl hend₁) (.inr hcomma)
          rw [hend₁] at hcomma
          cases hcomma
  | cons hslot₁ hd ih =>
      obtain ⟨s₃, hhere, hrest⟩ := hpass₁.append_inv
      obtain ⟨hcomma, s₄, hadvance, hpass₃⟩ := hrest.cons_inv
      cases he with
      | last hslot₂ =>
          obtain ⟨-, -, rfl⟩ :=
            derivesSlot_unique hslot₁ hslot₂ hhere hpass₂ (.inr hcomma) (.inl hend₂)
          rw [hend₂] at hcomma
          cases hcomma
      | cons hslot₂ he =>
          obtain ⟨s₅, hhere₂, hrest₂⟩ := hpass₂.append_inv
          obtain ⟨hcomma₂, s₆, hadvance₂, hpass₄⟩ := hrest₂.cons_inv
          obtain ⟨rfl, rfl, rfl⟩ :=
            derivesSlot_unique hslot₁ hslot₂ hhere hhere₂ (.inr hcomma) (.inr hcomma₂)
          rw [hadvance] at hadvance₂
          cases hadvance₂
          obtain ⟨rfl, rfl⟩ := ih he hpass₃ hpass₄
          exact ⟨rfl, rfl⟩

end Reader

open Reader

/-- The tokens of a text have at most one tree as an expression. -/
theorem HasTokens.expression_unique {text : String} {ts : List Token} {d e : Directive}
    (htext : HasTokens text ts) (hd : Derives loosest ts d) (he : Derives loosest ts e) : d = e := by
  obtain ⟨s, s', -, hpass, hend, -⟩ := hasTokens_iff_passes.1 htext
  have hfollow : s'.token.Follows loosest := hend.1 ▸ follows_endOfText
  exact (derives_unique hd he hpass hpass hfollow hfollow).1

/-- The tokens of a text have at most one tree as an item. -/
theorem HasTokens.item_unique {text : String} {ts : List Token} {m n : Nat} {d e : Directive}
    (htext : HasTokens text ts) (hd : DerivesItem m ts d) (he : DerivesItem n ts e) :
    m = n ∧ d = e := by
  obtain ⟨s, s', -, hpass, hend, -⟩ := hasTokens_iff_passes.1 htext
  have hfollow : s'.token.Follows loosest := hend.1 ▸ follows_endOfText
  obtain ⟨rfl, rfl, -⟩ := derivesItem_unique hd he hpass hpass hfollow hfollow
  exact ⟨rfl, rfl⟩

/-- The tokens of a text have at most one tree as a query. -/
theorem HasTokens.query_unique {text : String} {ts : List Token} {m n : Nat} {q r : Query}
    (htext : HasTokens text ts) (hq : DerivesQuery m ts q) (hr : DerivesQuery n ts r) :
    m = n ∧ q = r := by
  obtain ⟨s, s', -, hpass, -, -⟩ := hasTokens_iff_passes.1 htext
  cases hq with
  | @mk us ds table hitems =>
      generalize hts : Token.word table :: .symbol .openBracket :: (us ++ [.symbol .closeBracket]) =
        ts at hr
      cases hr with
      | @mk vs es table' hitems' =>
          simp only [List.cons.injEq, Token.word.injEq, true_and] at hts
          obtain ⟨rfl, hts⟩ := hts
          obtain ⟨rfl, -⟩ := List.append_inj' hts rfl
          obtain ⟨-, s₁, -, hpass⟩ := hpass.cons_inv
          obtain ⟨-, s₂, -, hpass⟩ := hpass.cons_inv
          obtain ⟨s₃, hpass, hrest⟩ := hpass.append_inv
          have hclose := hrest.cons_inv.1
          obtain ⟨rfl, rfl⟩ := derivesItems_unique hitems hitems' hpass hpass hclose hclose
          exact ⟨rfl, rfl⟩

/-! ## Acceptance -/

/-- Reading a text accepts exactly the tokens of the grammar whose tree is
within the nesting limit, and returns their tree, which is the only one
that they have. Beyond the limit, it is the limit that reading fails at. -/
theorem parse_iff_derives (text : String) :
    (∀ d, Directive.parse text = .ok d ↔
      ∃ ts n, HasTokens text ts ∧ DerivesItem n ts d ∧ n ≤ maxDepth) ∧
    (∀ q, Query.parse text = .ok q ↔
      ∃ ts n, HasTokens text ts ∧ DerivesQuery n ts q ∧ n ≤ maxDepth) ∧
    (∀ ts, HasTokens text ts →
      (∀ m n d e, DerivesItem m ts d → DerivesItem n ts e → m = n ∧ d = e) ∧
      (∀ m n q r, DerivesQuery m ts q → DerivesQuery n ts r → m = n ∧ q = r) ∧
      (∀ n d, DerivesItem n ts d → maxDepth < n →
        ∃ place, Directive.parse text = .error (.tooDeep place)) ∧
      (∀ n q, DerivesQuery n ts q → maxDepth < n →
        ∃ place, Query.parse text = .error (.tooDeep place))) := by
  refine ⟨fun d => ⟨Directive.parse_eq_ok, ?_⟩, fun q => ⟨Query.parse_eq_ok, ?_⟩, ?_⟩
  · rintro ⟨ts, n, htext, hderives, hn⟩
    exact (Directive.parse_of_derives htext hderives).1 hn
  · rintro ⟨ts, n, htext, hderives, hn⟩
    exact (Query.parse_of_derives htext hderives).1 hn
  · intro ts htext
    refine ⟨fun m n d e => htext.item_unique, fun m n q r => htext.query_unique, ?_, ?_⟩
    · intro n d hderives hn
      exact (Directive.parse_of_derives htext hderives).2 hn
    · intro n q hderives hn
      exact (Query.parse_of_derives htext hderives).2 hn

/-! ## The limit is needed -/

/-- A column in parentheses. -/
def Directive.grouped : Nat → Directive
  | 0 => .column "a"
  | n + 1 => .group (grouped n)

/-- The tokens of a column in parentheses. -/
def groupedTokens : Nat → List Token
  | 0 => [.word "a"]
  | n + 1 => .symbol .openParen :: (groupedTokens n ++ [.symbol .closeParen])

theorem derives_grouped (n : Nat) : Derives 0 (groupedTokens n) (.grouped n) := by
  induction n with
  | zero => exact .column "a"
  | succ n ih => exact .group (ih.mono (Nat.zero_le _))

theorem cost_grouped (n : Nat) : (Directive.grouped n).cost = n := by
  induction n with
  | zero => rw [Directive.grouped, Directive.cost]
  | succ n ih => rw [Directive.grouped, Directive.cost, ih, Nat.add_comm]

theorem derivesItem_grouped (n : Nat) : DerivesItem n (groupedTokens n) (.grouped n) := by
  have hitem : DerivesItem (Directive.grouped n).cost (groupedTokens n) (.grouped n) := by
    refine .expression ((derives_grouped n).mono (Nat.zero_le _)) ?_ ?_ (.other ?_) <;>
      cases n <;> simp [groupedTokens, Directive.grouped, Directive.IsClauseCall]
  rwa [cost_grouped] at hitem

/-- Without the limit the grammar and the reader differ: 129 parentheses
around a column have a tree, and are not accepted. -/
theorem deep_parentheses_derived_not_accepted :
    ¬ (Directive.parse (String.ofList
          (List.replicate 129 '(' ++ 'a' :: List.replicate 129 ')')) = .ok (.grouped 129) ↔
        ∃ ts n, HasTokens (String.ofList
          (List.replicate 129 '(' ++ 'a' :: List.replicate 129 ')')) ts ∧
            DerivesItem n ts (.grouped 129)) := by
  have htext : HasTokens (String.ofList
      (List.replicate 129 '(' ++ 'a' :: List.replicate 129 ')')) (groupedTokens 129) := by
    rw [hasTokens_iff_lexes, String.toList_ofList]
    exact lexes_of_atMost (n := 260) (by decide +kernel) (by decide +kernel)
  have hderives := derivesItem_grouped 129
  obtain ⟨place, herror⟩ := (Directive.parse_of_derives htext hderives).2 (by decide)
  intro h
  have hok := h.2 ⟨_, _, htext, hderives⟩
  rw [herror] at hok
  cases hok

end QueryNotation
