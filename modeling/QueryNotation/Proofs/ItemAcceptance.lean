import QueryNotation.Proofs.ExpressionCompleteness
import QueryNotation.Proofs.ExpressionSoundness

/-!
# What the readers of items and queries accept

Both directions for items, lists of items and queries. An item is first
read as an expression, and the clause that it stands for does not depend
on anything but its tree.
-/

namespace QueryNotation

open BinaryOperator Number

/-! ## Clauses -/

theorem Directive.direction?_eq_some_iff {d : Directive} {x : Binary64} :
    d.direction? = some x ↔ SignedNumber d x := by
  constructor
  · intro h
    induction d using Directive.direction?.induct generalizing x with
    | case1 value => exact .number h
    | case2 operand ih =>
        rw [direction?] at h
        obtain ⟨y, hy, rfl⟩ := Option.map_eq_some_iff.1 h
        exact .minus (ih hy)
    | case3 operand ih => exact .plus (ih h)
    | case4 d h₁ h₂ h₃ =>
        rw [direction?] at h
        · cases h
        all_goals assumption
  · intro h
    induction h with
    | number h => exact h
    | plus h ih => exact ih
    | minus h ih => rw [direction?, ih, Option.map_some]

theorem Clause.ofWord?_word (c : Clause) : ofWord? c.word = some c := by cases c <;> decide

theorem Clause.word_of_ofWord? {word : String} {c : Clause} (h : ofWord? word = some c) :
    c.word = word := by
  simpa using List.find?_some h

theorem mem_clauseNames_iff {word : String} :
    word ∈ clauseNames ↔ Reader.isClauseWord word = true := by
  constructor
  · intro h
    simp only [clauseNames, List.mem_cons, List.not_mem_nil, or_false] at h
    rcases h with rfl | rfl | rfl | rfl | rfl | rfl <;> decide
  · intro h
    rw [Reader.isClauseWord, Bool.or_eq_true, beq_iff_eq, Option.isSome_iff_exists] at h
    rcases h with rfl | ⟨c, hc⟩
    · decide
    · rw [← Clause.word_of_ofWord? hc]
      cases c <;> decide

/-- Of the names of clauses, one stands for no clause with a single operand. -/
theorem eq_order_of_ofWord? {word : String} (hword : word ∈ clauseNames)
    (h : Clause.ofWord? word = none) : word = "order" := by
  have hclause := mem_clauseNames_iff.1 hword
  simpa [Reader.isClauseWord, h] using hclause

theorem ReadAs.eq_of_not_isClauseCall {e d : Directive} (h : ReadAs e d)
    (he : ¬ e.IsClauseCall) : d = e := by
  cases h with
  | clause c inner =>
      exact (he ⟨mem_clauseNames_iff.2 (by cases c <;> decide), by simp⟩).elim
  | order key => exact (he ⟨by decide, by simp⟩).elim
  | directed key h => exact (he ⟨by decide, by simp⟩).elim
  | other h => rfl

namespace Reader

theorem clauseOfCall_of_readAs {word : String} {arguments : List Directive} {d : Directive}
    (hword : word ∈ clauseNames) (h : ReadAs (.call word arguments) d) (place : Text.Position) :
    clauseOfCall word arguments place = .ok d := by
  cases h with
  | clause c inner => simp only [clauseOfCall, Clause.ofWord?_word]
  | order key => rfl
  | directed key h =>
      have hnone : Clause.ofWord? "order" = none := by decide
      simp only [clauseOfCall, hnone, Directive.direction?_eq_some_iff.2 h]
  | other h =>
      cases arguments with
      | nil => rfl
      | cons first rest => exact (h ⟨hword, by simp⟩).elim

theorem readAs_of_clauseOfCall {word : String} {arguments : List Directive} {d : Directive}
    {place : Text.Position} (hword : word ∈ clauseNames)
    (h : clauseOfCall word arguments place = .ok d) : ReadAs (.call word arguments) d := by
  unfold clauseOfCall at h
  split at h
  next =>
    cases h
    exact .other fun hcall => hcall.2 rfl
  next inner clause hsome =>
    cases h
    rw [← Clause.word_of_ofWord? hsome]
    exact .clause clause inner
  next key hnone =>
    cases h
    rw [eq_order_of_ofWord? hword hnone]
    exact .order key
  next key direction hnone =>
    split at h
    next x hx =>
      cases h
      rw [eq_order_of_ofWord? hword hnone]
      exact .directed key (Directive.direction?_eq_some_iff.1 hx)
    next => cases h
  next => cases h

/-- A call is no clause for the number of its arguments or for its direction. -/
theorem clauseOfCall_eq_error {word : String} {arguments : List Directive}
    {place : Text.Position} {e : ReadError} (h : clauseOfCall word arguments place = .error e) :
    e = .clauseArity word arguments.length place ∨
      ∃ key direction, Clause.ofWord? word = none ∧ arguments = [key, direction] ∧
        e = .invalidDirection direction place := by
  unfold clauseOfCall at h
  split at h
  next => cases h
  next => cases h
  next => cases h
  next key direction hnone =>
    split at h
    next => cases h
    next =>
      cases h
      exact .inr ⟨key, direction, hnone, rfl, rfl⟩
  next =>
    cases h
    exact .inl rfl

theorem clauseOfCall_ne_lexical {word : String} {arguments : List Directive}
    {place : Text.Position} (fault : LexError) :
    clauseOfCall word arguments place ≠ .error (.lexical fault) := by
  intro h
  rcases clauseOfCall_eq_error h with he | ⟨key, direction, -, -, he⟩ <;> cases he

/-! ## Items -/

variable {s s' : ReaderState} {d : Directive} {ts : List Token}

theorem Passes.head? (h : Passes s ts s') (hts : ts ≠ []) : ts.head? = some s.token := by
  obtain ⟨t, ts, rfl⟩ := List.exists_cons_of_ne_nil hts
  rw [h.cons_inv.1, List.head?_cons]

/-- A call starts with its name. -/
theorem token_of_derives_call {level : Nat} {name : String} {arguments : List Directive}
    (h : Derives level ts (.call name arguments)) (hpass : Passes s ts s') :
    s.token = .word name := by
  obtain ⟨us, parts, rfl, -⟩ := h.call_inv
  exact hpass.cons_inv.1

/-- What becomes of an expression that starts with the name of a clause. -/
def asItem (word : String) (place : Text.Position) : Directive → Reader Directive
  | .call name arguments =>
    if name = word then MonadExcept.ofExcept (clauseOfCall word arguments place)
    else pure (.call name arguments)
  | other => pure other

theorem clauseItem_eq (word : String) :
    clauseItem word s = (expression >>= asItem word s.start) s := by
  rw [clauseItem, get_bind]
  refine congrFun (bind_congr fun e => ?_) s
  cases e <;> rfl

theorem asItem_of_readAs {word : String} {e : Directive} {place : Text.Position}
    (hword : word ∈ clauseNames) (hname : ∀ name arguments, e = .call name arguments → name = word)
    (h : ReadAs e d) : asItem word place e s = .ok d s := by
  by_cases he : e.IsClauseCall
  · cases e with
    | call name arguments =>
        cases hname name arguments rfl
        rw [asItem, if_pos rfl, clauseOfCall_of_readAs hword h]
        rfl
    | _ => exact he.elim
  · cases h.eq_of_not_isClauseCall he
    cases d with
    | call name arguments =>
        cases hname name arguments rfl
        rw [asItem, if_pos rfl, clauseOfCall_of_readAs hword h]
        rfl
    | _ => rfl

theorem readAs_of_asItem {word : String} {e : Directive} {place : Text.Position}
    (hword : word ∈ clauseNames) (hname : ∀ name arguments, e = .call name arguments → name = word)
    (h : asItem word place e s = .ok d s') : ReadAs e d ∧ s' = s := by
  cases e with
  | call name arguments =>
      cases hname name arguments rfl
      rw [asItem, if_pos rfl] at h
      cases hclause : clauseOfCall word arguments place with
      | ok clause =>
          rw [hclause] at h
          obtain ⟨rfl, rfl⟩ := pure_eq_ok h
          exact ⟨readAs_of_clauseOfCall hword hclause, rfl⟩
      | error e =>
          rw [hclause] at h
          cases h
  | _ =>
      obtain ⟨rfl, rfl⟩ := pure_eq_ok h
      exact ⟨.other id, rfl⟩

theorem asItem_eq_error {word : String} {d : Directive} {place : Text.Position} {e : ReadError}
    (h : asItem word place d s = .error e s') : ∃ arguments, d = .call word arguments ∧
      clauseOfCall word arguments place = .error e ∧ s' = s := by
  cases d with
  | call name arguments =>
      rw [asItem] at h
      by_cases hname : name = word
      · subst hname
        rw [if_pos rfl] at h
        cases hclause : clauseOfCall name arguments place with
        | ok clause =>
            rw [hclause] at h
            cases h
        | error fault =>
            rw [hclause] at h
            cases h
            exact ⟨arguments, rfl, hclause, rfl⟩
      · rw [if_neg hname] at h
        cases h
  | _ => cases h

theorem item_of_distinct (h : s.token = .word "distinct") :
    item s = (advance >>= fun _ => pure .distinct) s := by
  rw [item, get_bind, h]
  rfl

theorem item_of_all (h : s.token = .word "all") :
    item s = (advance >>= fun _ => pure .all) s := by
  rw [item, get_bind, h]
  rfl

theorem item_of_clauseWord {word : String} (h : s.token = .word word) (hword : word ∈ clauseNames) :
    item s = (expression >>= asItem word s.start) s := by
  have hclause := mem_clauseNames_iff.1 hword
  simp only [clauseNames, List.mem_cons, List.not_mem_nil, or_false] at hword
  rw [item, get_bind, h, ← clauseItem_eq]
  rcases hword with rfl | rfl | rfl | rfl | rfl | rfl <;> exact congrFun (if_pos hclause) s

theorem item_of_expression (hdistinct : s.token ≠ .word "distinct") (hall : s.token ≠ .word "all")
    (hword : ∀ word, s.token = .word word → word ∉ clauseNames) : item s = expression s := by
  rw [item, get_bind]
  refine congrFun (?_ : _ = expression) s
  split
  next h => exact (hdistinct h).elim
  next h => exact (hall h).elim
  next name _ _ h =>
    have hclause := (not_congr mem_clauseNames_iff).1 (hword name h)
    rw [if_neg hclause]
  next => rfl

theorem item_sound (h : item s = .ok d s') :
    ∃ n ts, Passes s ts s' ∧ DerivesItem n ts d ∧ n ≤ maxDepth - s.depth := by
  by_cases hdistinct : s.token = .word "distinct"
  · rw [item_of_distinct hdistinct] at h
    obtain ⟨_, s₁, hadvance, h⟩ := bind_eq_ok h
    obtain ⟨rfl, rfl⟩ := pure_eq_ok h
    exact ⟨0, _, hdistinct ▸ .single hadvance, .distinct, Nat.zero_le _⟩
  by_cases hall : s.token = .word "all"
  · rw [item_of_all hall] at h
    obtain ⟨_, s₁, hadvance, h⟩ := bind_eq_ok h
    obtain ⟨rfl, rfl⟩ := pure_eq_ok h
    exact ⟨0, _, hall ▸ .single hadvance, .all, Nat.zero_le _⟩
  have hitem {e : Directive} {ts : List Token} {s₁ : ReaderState} (hpass : Passes s ts s₁)
      (hderives : Derives loosest ts e) (hread : ReadAs e d) : DerivesItem e.cost ts d := by
    have hhead := hpass.head? hderives.ne_nil
    exact .expression hderives (by simpa [hhead] using hdistinct) (by simpa [hhead] using hall) hread
  by_cases hclause : ∃ word, s.token = .word word ∧ word ∈ clauseNames
  · obtain ⟨word, ht, hword⟩ := hclause
    rw [item_of_clauseWord ht hword] at h
    obtain ⟨e, s₁, hexpression, hrest⟩ := bind_eq_ok h
    obtain ⟨ts, hpass, hderives, hcost⟩ := expression_sound hexpression
    obtain ⟨hread, rfl⟩ := readAs_of_asItem hword (by
      rintro name arguments rfl
      simpa [ht] using (token_of_derives_call hderives hpass).symm) hrest
    exact ⟨_, ts, hpass, hitem hpass hderives hread, hcost⟩
  · have hplain : ∀ word, s.token = .word word → word ∉ clauseNames :=
      fun word ht hword => hclause ⟨word, ht, hword⟩
    rw [item_of_expression hdistinct hall hplain] at h
    obtain ⟨ts, hpass, hderives, hcost⟩ := expression_sound h
    refine ⟨_, ts, hpass, hitem hpass hderives (.other ?_), hcost⟩
    intro hcall
    cases d with
    | call name arguments => exact hplain name (token_of_derives_call hderives hpass) hcall.1
    | _ => exact hcall

theorem expression_finds (h : Derives loosest ts d) (hpass : Passes s ts s')
    (hfollow : s'.token.Follows loosest) :
    LeadsTo (maxDepth - s.depth) d.cost (expression s) (.ok d s') := by
  rw [expression, get_bind, levels_eq]
  exact (derives_finds h).chain _ hpass hfollow

theorem item_finds {n : Nat} (h : DerivesItem n ts d) (hpass : Passes s ts s')
    (hfollow : s'.token.Follows loosest) :
    LeadsTo (maxDepth - s.depth) n (item s) (.ok d s') := by
  cases h with
  | distinct =>
      obtain ⟨ht, s₁, hadvance, hnil⟩ := hpass.cons_inv
      cases hnil
      rw [item_of_distinct ht, bind_of_ok hadvance]
      exact .refl _ _
  | all =>
      obtain ⟨ht, s₁, hadvance, hnil⟩ := hpass.cons_inv
      cases hnil
      rw [item_of_all ht, bind_of_ok hadvance]
      exact .refl _ _
  | @expression _ e _ hderives hdistinct hall hread =>
      have hexpression := expression_finds hderives hpass hfollow
      have hhead := hpass.head? hderives.ne_nil
      rw [hhead] at hdistinct hall
      by_cases hclause : ∃ word, s.token = .word word ∧ word ∈ clauseNames
      · obtain ⟨word, ht, hword⟩ := hclause
        rw [item_of_clauseWord ht hword]
        refine hexpression.bind_ok (asItem_of_readAs hword ?_ hread)
        rintro name arguments rfl
        simpa [ht] using (token_of_derives_call hderives hpass).symm
      · have hplain : ∀ word, s.token = .word word → word ∉ clauseNames :=
          fun word ht hword => hclause ⟨word, ht, hword⟩
        rw [item_of_expression (by simpa using hdistinct) (by simpa using hall) hplain]
        have he : ¬ e.IsClauseCall := by
          intro hcall
          cases e with
          | call name arguments => exact hplain name (token_of_derives_call hderives hpass) hcall.1
          | _ => exact hcall
        cases hread.eq_of_not_isClauseCall he
        exact hexpression

end Reader

end QueryNotation
