import QueryNotation.Proofs.AcceptedItems
import QueryNotation.Proofs.QueryAcceptance

/-!
# Trees that are read back from their notation

A tree in canonical shape has the shape of a tree that was read: it
follows precedence, and each of its constants is one literal. Its notation
is read as the same tree with the constants that the literals stand for.
Markers are canonical as well, but they are written as nothing, and
nothing is no item.
-/

namespace QueryNotation

open BinaryOperator Number

/-! ## Constants -/

namespace Value

variable {v w : Value}

/-- The text of the first value is one literal, which stands for the second. -/
def IsReadAs (v w : Value) : Prop := HasTokens (String.ofList v.text) [.literal w]

/-- The text is one literal, and stands for an equal value of the same type. -/
structure ReadsBack (v : Value) : Prop where
  unquoted : v.IsUnquoted
  alike : ∃ w, v.IsReadAs w ∧ v.equal w = true

/-- The text is one literal, and stands for the value in every respect. -/
structure ReadsBackExactly (v : Value) : Prop where
  unquoted : v.IsUnquoted
  same : v.IsReadAs v

end Value

/-- Only a constant has a literal for its only token. -/
theorem Directive.Worded.eq_constant {property : Value → Prop} {d : Directive} {w : Value}
    (h : d.Worded property) (htokens : d.tokens = [.literal w]) : d = .constant w := by
  cases h with
  | column hword hname =>
      rw [tokens, List.singleton_inj] at htokens
      rcases Token.ofWord_column hname with hw | ⟨-, hw⟩ | ⟨-, hw⟩ <;> rw [hw] at htokens <;>
        cases htokens
  | constant h =>
      rw [tokens] at htokens
      cases htokens
      rfl
  | call hword hname h =>
      rw [tokens] at htokens
      cases htokens
  | group h =>
      rw [tokens] at htokens
      cases htokens
  | unary op h =>
      rw [tokens] at htokens
      cases htokens
  | binary op ha hb =>
      rw [tokens] at htokens
      have hleft := List.length_pos_iff.2 ha.tokens_ne_nil
      have hlength := congrArg List.length htokens
      rw [List.length_append, List.length_cons, List.length_singleton] at hlength
      omega

theorem Value.IsReadAs.reread_eq {v w : Value} (h : v.IsReadAs w) (hv : v.IsUnquoted) :
    v.reread = .constant w := by
  have hlegible := isLegible_reread hv
  have hspells := spells_render hlegible
  rw [render_reread_compact] at hspells
  have htokens : HasTokens (String.ofList v.text) v.reread.tokens := by
    refine Spells.hasTokens ?_ delimits_nil
    rwa [String.toList_ofList]
  apply hlegible.eq_constant
  exact htokens.unique h

theorem Value.ReadsBack.isUndivided {v : Value} (h : v.ReadsBack) : v.IsUndivided := by
  obtain ⟨w, hw, -⟩ := h.alike
  exact .inl ⟨w, hw.reread_eq h.unquoted⟩

theorem Binary64.equal_refl_of_isFinite {x : Binary64} (h : (Value.float x).IsFinite) :
    x.equal x = true := by
  cases x with
  | finite negative rank => simp [Binary64.equal]
  | infinity | nan => exact h.elim

namespace Directive

variable {property : Value → Prop} {d : Directive}

/-! ## Trees -/

theorem equalLists_map {f : Directive → Directive} {ds : List Directive}
    (h : ∀ d ∈ ds, d.equal (f d) = true) : equalLists ds (ds.map f) = true := by
  induction ds with
  | nil => rfl
  | cons d ds ih =>
      obtain ⟨hd, hds⟩ := List.forall_mem_cons.1 h
      rw [List.map_cons, equalLists, hd, ih hds, Bool.and_self]

theorem Worded.equal_reread (h : d.Worded Value.ReadsBack) : d.equal d.reread = true := by
  induction h with
  | column hword hname => simp [Directive.reread, equal]
  | constant h =>
      obtain ⟨w, hw, hequal⟩ := h.alike
      rwa [Directive.reread, hw.reread_eq h.unquoted, equal]
  | call hword hname h ih => simp [Directive.reread, rereadAll_eq_map, equal, equalLists_map ih]
  | group h ih => rwa [Directive.reread, equal]
  | unary op h ih => simp [Directive.reread, equal, ih]
  | binary op ha hb iha ihb => simp [Directive.reread, equal, iha, ihb]

theorem Worded.reread_eq (h : d.Worded Value.ReadsBackExactly) : d.reread = d := by
  induction h with
  | column hword hname => rfl
  | constant h => rw [Directive.reread, h.same.reread_eq h.unquoted]
  | call hword hname h ih => rw [Directive.reread, rereadAll_eq_map, List.map_congr_left ih, List.map_id']
  | group h ih => rw [Directive.reread, ih]
  | unary op h ih => rw [Directive.reread, ih]
  | binary op ha hb iha ihb => rw [Directive.reread, iha, ihb]

/-! ## Canonical shape -/

/-- The shape of the items that are read: trees that follow precedence, of
words and of constants with a property, and clauses only at the root. -/
inductive IsCanonical (property : Value → Prop) : Directive → Prop where
  | expression {d : Directive} (h : d.Worded property) (hfits : Fits loosest d)
      (hleft : ∀ name, d.leftmostName? = some name → name ∉ ["distinct", "all"])
      (hclause : ¬ d.IsClauseCall) : IsCanonical property d
  | clause (c : Clause) {inner : Directive} (h : inner.Worded property)
      (hfits : Fits loosest inner) : IsCanonical property (.clause c inner)
  | order {key : Directive} {direction : Binary64} (h : key.Worded property)
      (hfits : Fits loosest key) (hfinite : (Value.float direction).IsFinite) :
      IsCanonical property (.order key direction)
  | distinct : IsCanonical property .distinct
  | all : IsCanonical property .all

/-- The same tree as the types of its parts define it, and the direction of
a sort key to the bit. -/
def Matches (d e : Directive) : Prop :=
  d.equal e = true ∧ ∀ key x, d = .order key x → ∃ other, e = .order other x

namespace IsCanonical

theorem isWritable (h : d.IsCanonical property) (hunquoted : ∀ v, property v → v.IsUnquoted)
    (hmarker : d ≠ .distinct ∧ d ≠ .all) : d.IsWritable Value.IsUnquoted := by
  cases h with
  | expression h hfits hleft hclause => exact .expression (h.mono hunquoted) hleft hclause
  | clause c h hfits => exact .clause c (h.mono hunquoted)
  | order h hfits hfinite => exact .order (h.mono hunquoted) trivial
  | distinct => exact (hmarker.1 rfl).elim
  | all => exact (hmarker.2 rfl).elim

theorem isFinite (h : d.IsCanonical property) :
    ∀ key x, d = .order key x → (Value.float x).IsFinite := by
  rintro key x rfl
  cases h with
  | expression h => cases h
  | order h hfits hfinite => exact hfinite

end IsCanonical

theorem Worded.isUndivided (h : d.Worded Value.ReadsBack) : d.Worded Value.IsUndivided :=
  h.mono fun _ hv => hv.isUndivided

theorem equal_regroup_reread (h : d.Worded Value.ReadsBack) (hfits : Fits loosest d) :
    d.equal d.reread.regroup = true := by
  rw [h.isUndivided.regroup_reread hfits]
  exact h.equal_reread

namespace IsCanonical

/-- A direction has at most one sign, and takes no level beyond the second. -/
theorem cost_spelled (h : d.IsCanonical Value.ReadsBack) (hmarker : d ≠ .distinct ∧ d ≠ .all) :
    d.cost ≤ d.spelled.cost ∧ d.spelled.cost ≤ max d.cost 2 := by
  cases h with
  | expression h hfits =>
      rw [h.spelled_eq, h.isUndivided.cost_regroup_reread hfits]
      omega
  | clause c h hfits =>
      rw [spelled, cost, cost, largestCost, largestCost, h.isUndivided.cost_regroup_reread hfits]
      omega
  | @order key direction h hfits =>
      have hdirection := cost_reread_float direction
      rw [spelled, cost, cost, largestCost, h.isUndivided.cost_regroup_reread hfits]
      split
      next =>
        rw [largestCost]
        omega
      next =>
        rw [largestCost, largestCost]
        omega
  | distinct => exact (hmarker.1 rfl).elim
  | all => exact (hmarker.2 rfl).elim

theorem matches_normal (h : d.IsCanonical Value.ReadsBack) (hmarker : d ≠ .distinct ∧ d ≠ .all) :
    d.Matches d.normal := by
  cases h with
  | expression h hfits =>
      rw [h.normal_eq]
      refine ⟨equal_regroup_reread h hfits, ?_⟩
      rintro key x rfl
      cases h
  | clause c h hfits =>
      refine ⟨?_, fun key x => Directive.noConfusion⟩
      simp [normal, equal, equal_regroup_reread h hfits]
  | order h hfits hfinite =>
      refine ⟨?_, ?_⟩
      · simp [normal, equal, equal_regroup_reread h hfits, Binary64.equal_refl_of_isFinite hfinite]
      · rintro key x ⟨⟩
        exact ⟨_, rfl⟩
  | distinct => exact (hmarker.1 rfl).elim
  | all => exact (hmarker.2 rfl).elim

theorem normal_eq (h : d.IsCanonical Value.ReadsBackExactly)
    (hmarker : d ≠ .distinct ∧ d ≠ .all) : d.normal = d := by
  cases h with
  | expression h hfits => rw [h.normal_eq, h.reread_eq, regroup_of_fits hfits]
  | clause c h hfits => rw [normal, h.reread_eq, regroup_of_fits hfits]
  | order h hfits => rw [normal, h.reread_eq, regroup_of_fits hfits]
  | distinct => exact (hmarker.1 rfl).elim
  | all => exact (hmarker.2 rfl).elim

end IsCanonical

/-- Within the nesting limit, and only there, the notation of a canonical
tree is read as the tree again. -/
theorem parse_text_of_isCanonical (h : d.IsCanonical Value.ReadsBack)
    (hmarker : d ≠ .distinct ∧ d ≠ .all) :
    (d.cost ≤ maxDepth → ∃ e, parse (d.text .compact) = .ok e ∧ d.Matches e ∧
      (d.IsCanonical Value.ReadsBackExactly → e = d)) ∧
    (maxDepth < d.cost → ∃ place, parse (d.text .compact) = .error (.tooDeep place)) := by
  have hwritable := h.isWritable (fun _ hv => hv.unquoted) hmarker
  have hwritten := hwritable.isWrittenAs
  have htokens : HasTokens (d.text .compact) d.spelled.tokens := by
    refine Spells.hasTokens ?_ delimits_nil
    rw [text, String.toList_ofList]
    exact hwritten.spells
  obtain ⟨hok, hdeep⟩ := parse_of_derives htokens (hwritten.derivesItem (hwritable.readAs h.isFinite))
  obtain ⟨hle, hge⟩ := h.cost_spelled hmarker
  constructor
  · intro hcost
    have hlimit : max d.cost 2 ≤ maxDepth := Nat.max_le.2 ⟨hcost, by decide⟩
    refine ⟨d.normal, hok (Nat.le_trans hge hlimit), h.matches_normal hmarker, ?_⟩
    intro hexact
    exact hexact.normal_eq hmarker
  · intro hcost
    exact hdeep (Nat.lt_of_lt_of_le hcost hle)

/-- A number with more digits than binary64 has, and a zero at its end. -/
def paddedDecimal : Decimal := ⟨1234567890123456789010, 21, by decide, by decide⟩

/-- Operators of four levels over a call and constants of three types. -/
def mixedKey : Directive :=
  .binary .or
    (.binary .less
      (.binary .subtract (.column "a")
        (.binary .multiply (.unary .negative (.column "and")) (.constant (.decimal paddedDecimal))))
      (.constant (.float (.finite false ⟨0x3ff8000000000000, by decide⟩))))
    (.call "f" [.column "x", .constant (.boolean true)])

theorem fits_mixedKey : Fits loosest mixedKey := by
  have hcall : Fits 4 (.call "f" [.column "x", .constant (.boolean true)]) :=
    .call _ (by simpa using ⟨.column _, .constant _⟩)
  have hproduct : Fits 1 (.binary .multiply (.unary .negative (.column "and"))
      (.constant (.decimal paddedDecimal))) :=
    .binary (by decide) (.unary _ (.column _)) (.constant _)
  have hdifference : Fits 3 (.binary .subtract (.column "a") (.binary .multiply
      (.unary .negative (.column "and")) (.constant (.decimal paddedDecimal)))) :=
    .binary (by decide) (.column "a") hproduct
  exact .binary (by decide) (.binary (by decide) hdifference (.constant _)) hcall

theorem worded_mixedKey : mixedKey.Worded Value.ReadsBack := by
  have hconstant {v w : Value} (hw : v.IsReadAs w) (hv : v.IsUnquoted) (h : v.equal w = true) :
      (constant v).Worded Value.ReadsBack := .constant ⟨hv, w, hw, h⟩
  have hdecimal : (Value.decimal paddedDecimal).IsReadAs
      (.decimal ⟨123456789012345678901, 20, by decide, by decide⟩) := by
    rw [Value.IsReadAs, hasTokens_iff_lexes, String.toList_ofList]
    exact lexes_of_atMost (n := 2) (by decide +kernel) (by decide +kernel)
  have hfloat : (Value.float (.finite false ⟨0x3ff8000000000000, by decide⟩)).IsReadAs
      (.float (.finite false ⟨0x3ff8000000000000, by decide⟩)) := by
    rw [Value.IsReadAs, hasTokens_iff_lexes, String.toList_ofList]
    exact lexes_of_atMost (n := 2) (by decide +kernel) (by decide +kernel)
  have hboolean : (Value.boolean true).IsReadAs (.boolean true) := by
    rw [Value.IsReadAs, hasTokens_iff_lexes, String.toList_ofList]
    exact lexes_of_atMost (n := 2) (by decide +kernel) (by decide +kernel)
  have ha : (column "a").Worded Value.ReadsBack :=
    .column (isWord_of_all "a" (by decide +kernel)) (by decide)
  have hand : (column "and").Worded Value.ReadsBack :=
    .column (isWord_of_all "and" (by decide +kernel)) (by decide)
  have hx : (column "x").Worded Value.ReadsBack :=
    .column (isWord_of_all "x" (by decide +kernel)) (by decide)
  have hcall : (call "f" [.column "x", .constant (.boolean true)]).Worded Value.ReadsBack := by
    refine .call (isWord_of_all "f" (by decide +kernel)) (by decide) ?_
    simpa using ⟨hx, hconstant hboolean trivial rfl⟩
  have hproduct := Worded.binary .multiply (.unary .negative hand)
    (hconstant hdecimal trivial (by decide +kernel))
  have hcomparison := Worded.binary .less (.binary .subtract ha hproduct)
    (hconstant hfloat trivial (by decide +kernel))
  exact .binary .or hcomparison hcall

/-- A sort key with the direction -2. -/
def descendingKey : Directive := .order mixedKey (.finite true ⟨0x4000000000000000, two_lt_finiteCount⟩)

/-- The decimal is read without the zero, and is equal all the same. -/
theorem descendingKey_read_back :
    (descendingKey.IsCanonical Value.ReadsBack ∧ (descendingKey ≠ .distinct ∧ descendingKey ≠ .all) ∧
      descendingKey.cost ≤ maxDepth) ∧
    ∃ e, parse (descendingKey.text .compact) = .ok e ∧ descendingKey.Matches e := by
  have hcanonical : descendingKey.IsCanonical Value.ReadsBack :=
    .order worded_mixedKey fits_mixedKey trivial
  have hmarker : descendingKey ≠ .distinct ∧ descendingKey ≠ .all :=
    ⟨Directive.noConfusion, Directive.noConfusion⟩
  have hcost : descendingKey.cost ≤ maxDepth := by decide +kernel
  obtain ⟨e, hparse, hmatches, -⟩ := (parse_text_of_isCanonical hcanonical hmarker).1 hcost
  exact ⟨⟨hcanonical, hmarker, hcost⟩, e, hparse, hmatches⟩

/-- A marker is canonical, and its notation is no item. -/
theorem distinct_not_read_back :
    ¬ ∀ d : Directive, d.IsCanonical Value.ReadsBack → d.cost ≤ maxDepth →
      ∃ e, parse (d.text .compact) = .ok e ∧ d.Matches e := by
  intro h
  obtain ⟨e, hparse, -⟩ := h .distinct .distinct (Nat.zero_le _)
  have hempty : parse (Directive.distinct.text .compact) =
      .error (.unexpected .expression .endOfText ⟨1, 1, 0⟩) := rfl
  rw [hempty] at hparse
  cases hparse

end Directive

end QueryNotation
