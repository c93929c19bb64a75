import QueryNotation.Proofs.CallHistory

/-!
# Contracts of runs

A contract says in which states a run may return and with which errors and
in which states it may fail, given the state that it starts in. All
readers are put together from reading one token, going one level deeper
and coming back, and failing. A contract that these meet is met by every
reader, and so by every call.
-/

namespace QueryNotation

open BinaryOperator Text

structure Contract where
  /-- The states before and after a run that returns. -/
  returns : ReaderState → ReaderState → Prop
  /-- The state before a run that fails, its error, and the state that it leaves. -/
  fails : ReaderState → ReadError → ReaderState → Prop

namespace Contract

variable (C : Contract) {α β : Type}

def Allows (s : ReaderState) : EStateM.Result ReadError ReaderState α → Prop
  | .ok _ s' => C.returns s s'
  | .error e s' => C.fails s e s'

abbrev Meets (x : Reader α) : Prop := ∀ s, C.Allows s (x s)

/-- What it takes for all readers of expressions to meet a contract. -/
structure IsLawful : Prop where
  refl : ∀ s, C.returns s s
  trans : ∀ {s s₁ s' : ReaderState}, C.returns s s₁ → C.returns s₁ s' → C.returns s s'
  fails_after : ∀ {s s₁ s' : ReaderState} {e : ReadError},
    C.returns s s₁ → C.fails s₁ e s' → C.fails s e s'
  read : ∀ {s : ReaderState} {t : Token} {stop : Cursor}, Lexer.next s.cursor = .ok t stop →
    C.returns s ⟨stop, t, s.cursor.skipBlanks.place, s.depth⟩
  /-- Which token is left ahead makes no difference. -/
  fault : ∀ {s : ReaderState} {e : LexError} {stop : Cursor} (left : Token),
    Lexer.next s.cursor = .error e stop →
      C.fails s (.lexical e) ⟨stop, left, s.cursor.skipBlanks.place, s.depth⟩
  unexpected : ∀ (s : ReaderState) (expected : Expectation),
    C.fails s (.unexpected expected s.token s.start) s
  descend : ∀ s : ReaderState, C.returns s (s.atDepth (s.depth + 1))
  tooDeep : ∀ s : ReaderState, C.fails s (.tooDeep s.start) (s.atDepth (s.depth + 1))
  restore : ∀ {s s' : ReaderState}, C.returns s s' → C.returns s (s'.atDepth s.depth)

/-- The contract allows for calls that stand for no clause. These are looked at after
they have been read. -/
def AllowsClauses : Prop :=
  ∀ {s s' : ReaderState} {word : String} {arguments : List Directive} {e : ReadError},
    C.returns s s' → Reader.clauseOfCall word arguments s.start = .error e → C.fails s e s'

variable {C}

/-- What a contract allows of a run from one state it allows from another one, if
it makes no difference between them. -/
theorem Allows.imp {s₁ s₂ : ReaderState} {r : EStateM.Result ReadError ReaderState α}
    (h : C.Allows s₁ r) (hreturns : ∀ s', C.returns s₁ s' → C.returns s₂ s')
    (hfails : ∀ e s', C.fails s₁ e s' → C.fails s₂ e s') : C.Allows s₂ r := by
  cases r with
  | ok a s' => exact hreturns s' h
  | error e s' => exact hfails e s' h

namespace Meets

/-! ## Combinators -/

variable {x : Reader α}

/-- In each state it is enough to look at a reader that does the same there. -/
theorem of_eq (h : ∀ s, ∃ y : Reader α, C.Meets y ∧ x s = y s) : C.Meets x := by
  intro s
  obtain ⟨y, hy, heq⟩ := h s
  rw [heq]
  exact hy s

variable (hC : C.IsLawful)

include hC

theorem advance : C.Meets Reader.advance := by
  intro s
  cases hnext : Lexer.next s.cursor with
  | ok t stop =>
      rw [Reader.advance_of_next hnext]
      exact hC.read hnext
  | error e stop =>
      rw [Reader.advance_of_fault hnext]
      exact hC.fault s.token hnext

theorem take : C.Meets Reader.take := by
  intro s
  cases hnext : Lexer.next s.cursor with
  | ok t stop =>
      rw [Reader.take_eq_ok_iff.2 (Reader.advance_of_next hnext)]
      exact hC.read hnext
  | error e stop =>
      have htake := Reader.advance_of_fault (s := { s with token := .endOfText }) hnext
      change C.Allows s (Reader.advance { s with token := .endOfText })
      rw [htake]
      exact hC.fault .endOfText hnext

theorem pure (a : α) : C.Meets (Pure.pure a : Reader α) := fun s => hC.refl s

theorem bind {f : α → Reader β} (hx : C.Meets x) (hf : ∀ a, C.Meets (f a)) :
    C.Meets (x >>= f) := by
  intro s
  have hrun := hx s
  cases hr : x s with
  | ok a s₁ =>
      rw [Reader.bind_of_ok hr]
      rw [hr] at hrun
      exact (hf a s₁).imp (fun s' => hC.trans hrun) (fun e s' => hC.fails_after hrun)
  | error e s₁ =>
      rw [Reader.bind_of_error hr]
      rwa [hr] at hrun

theorem fail (expected : Expectation) : C.Meets (Reader.fail expected : Reader α) :=
  fun s => hC.unexpected s expected

theorem expect (t : Token) : C.Meets (Reader.expect t) := by
  refine of_eq fun s => ?_
  by_cases ht : s.token = t
  · exact ⟨_, advance hC, Reader.expect_of_eq ht⟩
  · exact ⟨_, fail hC (.token t), Reader.expect_of_ne ht⟩

theorem restoringDepth (hx : C.Meets x) : C.Meets (Reader.restoringDepth x) := by
  intro s
  have hrun := hx s
  cases hr : x s with
  | ok a s₁ =>
      rw [Reader.restoringDepth_of_ok hr]
      rw [hr] at hrun
      exact hC.restore hrun
  | error e s₁ =>
      rw [Reader.restoringDepth_of_error hr]
      rwa [hr] at hrun

theorem descend {below : Option Levels} {reader : Levels → Reader α}
    (h : ∀ levels, below = some levels → C.Meets (reader levels)) :
    C.Meets (Reader.descend below reader) := by
  cases below with
  | none => exact fun s => hC.tooDeep s
  | some levels =>
      intro s
      have hdescend := hC.descend s
      exact (h levels rfl (s.atDepth (s.depth + 1))).imp
        (fun s' => hC.trans hdescend) (fun e s' => hC.fails_after hdescend)

end Meets

/-! ## Readers of expressions -/

variable (C) in
structure MeetsLevels (levels : Levels) : Prop where
  chain : ∀ level, C.Meets (levels.chain level)
  chainRest : ∀ level left, C.Meets (levels.chainRest level left)

variable (C) in
abbrev MeetsBelow (below : Option Levels) : Prop :=
  ∀ levels, below = some levels → C.MeetsLevels levels

namespace Meets

section

variable (hC : C.IsLawful)

include hC

theorem separator : C.Meets Reader.separator := by
  refine of_eq fun s => ?_
  by_cases hclose : s.token = .symbol .closeParen
  · exact ⟨_, pure hC (), Reader.separator_of_close hclose⟩
  · exact ⟨_, expect hC (.symbol .comma), Reader.separator_of_ne hclose⟩

theorem arguments {levels : Levels} (hchain : C.Meets (levels.chain loosest)) (left : List Char) :
    C.Meets (Reader.arguments levels left) := by
  induction left with
  | nil =>
      refine of_eq fun s => ?_
      by_cases hclose : s.token = .symbol .closeParen
      · exact ⟨_, bind hC (advance hC) fun _ => pure hC [], Reader.arguments_of_close hclose⟩
      · refine ⟨_, ?_, Reader.arguments_of_ne hclose⟩
        exact bind hC hchain fun first => bind hC (separator hC) fun _ => fail hC _
  | cons c left ih =>
      refine of_eq fun s => ?_
      by_cases hclose : s.token = .symbol .closeParen
      · exact ⟨_, bind hC (advance hC) fun _ => pure hC [], Reader.arguments_of_close hclose⟩
      · refine ⟨_, ?_, Reader.arguments_of_ne hclose⟩
        refine bind hC hchain fun first => bind hC (separator hC) fun _ => ?_
        exact bind hC ih fun rest => pure hC _

theorem callArguments {levels : Levels} (hchain : C.Meets (levels.chain loosest)) :
    C.Meets (Reader.callArguments levels) :=
  fun s => arguments hC hchain s.cursor.ahead s

end

section

variable {below : Option Levels} (hC : C.IsLawful) (hbelow : C.MeetsBelow below)

include hC hbelow

theorem inner (level : Nat) :
    C.Meets (Reader.restoringDepth (Reader.descend below fun levels => levels.chain level)) :=
  restoringDepth hC (descend hC fun levels hlevels => (hbelow levels hlevels).chain level)

theorem chainRest (level : Nat) (left : Directive) :
    C.Meets (Reader.chainRest below level left) := by
  refine of_eq fun s => ?_
  cases hop : atLevel? level s.token with
  | none => exact ⟨_, pure hC left, Reader.chainRest_of_none hop⟩
  | some op =>
      refine ⟨_, ?_, Reader.chainRest_of_some hop⟩
      refine bind hC (advance hC) fun _ => descend hC fun levels hlevels => ?_
      exact bind hC ((hbelow levels hlevels).chain _)
        fun right => (hbelow levels hlevels).chainRest _ _

theorem afterName (name : String) : C.Meets (Reader.afterName below name) := by
  refine of_eq fun s => ?_
  by_cases hopen : s.token = .symbol .openParen
  · refine ⟨_, ?_, Reader.afterName_of_open hopen⟩
    refine bind hC (advance hC) fun _ => bind hC ?_ fun arguments => pure hC _
    refine restoringDepth hC (descend hC fun levels hlevels => ?_)
    exact callArguments hC ((hbelow levels hlevels).chain loosest)
  · exact ⟨_, pure hC (.column name), Reader.afterName_of_ne hopen⟩

theorem primary : C.Meets (Reader.primary below) := by
  refine of_eq fun s => ?_
  have hother (h : Reader.primary below s = Reader.fail .expression s) :
      ∃ y : Reader Directive, C.Meets y ∧ Reader.primary below s = y s :=
    ⟨_, fail hC .expression, h⟩
  cases ht : s.token with
  | literal value => exact ⟨_, bind hC (take hC) fun _ => pure hC _, Reader.primary_of_literal ht⟩
  | word name =>
      exact ⟨_, bind hC (take hC) fun _ => afterName hC hbelow name, Reader.primary_of_word ht⟩
  | endOfText => exact hother (by rw [Reader.primary, Reader.get_bind, ht])
  | symbol symbol =>
      cases symbol with
      | and => exact ⟨_, bind hC (take hC) fun _ => pure hC _, Reader.primary_of_and ht⟩
      | or => exact ⟨_, bind hC (take hC) fun _ => pure hC _, Reader.primary_of_or ht⟩
      | openParen =>
          refine ⟨_, ?_, Reader.primary_of_openParen ht⟩
          refine bind hC (take hC) fun _ => bind hC (inner hC hbelow loosest) fun d => ?_
          exact bind hC (expect hC (.symbol .closeParen)) fun _ => pure hC _
      | _ => exact hother (by rw [Reader.primary, Reader.get_bind, ht])

theorem prefixed : C.Meets (Reader.prefixed below) := by
  refine of_eq fun s => ?_
  cases hop : UnaryOperator.ofToken? s.token with
  | none => exact ⟨_, primary hC hbelow, Reader.prefixed_of_none hop⟩
  | some op =>
      refine ⟨_, ?_, Reader.prefixed_of_some hop⟩
      exact bind hC (advance hC) fun _ => bind hC (inner hC hbelow 0) fun operand => pure hC _

theorem chain (level : Nat) : C.Meets (Reader.chain below level) := by
  induction level with
  | zero => exact prefixed hC hbelow
  | succ level ih =>
      rw [Reader.chain_succ]
      exact restoringDepth hC (bind hC ih fun left => chainRest hC hbelow (level + 1) left)

end

section

variable (hC : C.IsLawful)

include hC

theorem levels (room : Nat) : C.MeetsLevels (Reader.levels room) := by
  induction room with
  | zero =>
      have hbelow : C.MeetsBelow none := nofun
      exact ⟨chain hC hbelow, chainRest hC hbelow⟩
  | succ room ih =>
      have hbelow : C.MeetsBelow (some (Reader.levels room)) := by
        intro levels hlevels
        cases hlevels
        exact ih
      exact ⟨chain hC hbelow, chainRest hC hbelow⟩

theorem expression : C.Meets Reader.expression :=
  fun s => (levels hC (maxDepth - s.depth)).chain loosest s

/-! ## Readers of items and queries -/

theorem expectWord : C.Meets Reader.expectWord := by
  refine of_eq fun s => ?_
  cases ht : s.token with
  | word name => exact ⟨_, bind hC (take hC) fun _ => pure hC name, Reader.expectWord_of_word ht⟩
  | literal | symbol | endOfText =>
      refine ⟨_, fail hC .identifier, ?_⟩
      rw [Reader.expectWord, Reader.get_bind, ht]

end

section

variable (hC : C.IsLawful) (hclauses : C.AllowsClauses)

include hC hclauses

theorem clauseItem (word : String) : C.Meets (Reader.clauseItem word) := by
  intro s
  have hexpression := expression hC s
  rw [Reader.clauseItem_eq]
  cases hr : Reader.expression s with
  | error e s' =>
      rw [Reader.bind_of_error hr]
      rwa [hr] at hexpression
  | ok d s' =>
      rw [Reader.bind_of_ok hr]
      rw [hr] at hexpression
      cases d with
      | call name arguments =>
          rw [Reader.asItem]
          by_cases hname : name = word
          · rw [if_pos hname]
            cases hclause : Reader.clauseOfCall word arguments s.start with
            | ok clause => exact hexpression
            | error e => exact hclauses hexpression hclause
          · rw [if_neg hname]
            exact hexpression
      | _ => exact hexpression

theorem item : C.Meets Reader.item := by
  refine of_eq fun s => ?_
  by_cases hdistinct : s.token = .word "distinct"
  · exact ⟨_, bind hC (advance hC) fun _ => pure hC _, Reader.item_of_distinct hdistinct⟩
  by_cases hall : s.token = .word "all"
  · exact ⟨_, bind hC (advance hC) fun _ => pure hC _, Reader.item_of_all hall⟩
  by_cases hclause : ∃ word, s.token = .word word ∧ word ∈ clauseNames
  · obtain ⟨word, hword, hmem⟩ := hclause
    refine ⟨_, clauseItem hC hclauses word, ?_⟩
    rw [Reader.clauseItem_eq, Reader.item_of_clauseWord hword hmem]
  · have hplain : ∀ word, s.token = .word word → word ∉ clauseNames :=
      fun word hword hmem => hclause ⟨word, hword, hmem⟩
    exact ⟨_, expression hC, Reader.item_of_expression hdistinct hall hplain⟩

theorem directive : C.Meets Reader.directive :=
  bind hC (item hC hclauses) fun d => bind hC (expect hC .endOfText) fun _ => pure hC d

theorem possibleItem : C.Meets Reader.possibleItem := by
  refine of_eq fun s => ?_
  by_cases hempty : s.token = .symbol .closeBracket ∨ s.token = .symbol .comma
  · exact ⟨_, pure hC [], Reader.possibleItem_of_empty hempty⟩
  · rw [not_or] at hempty
    exact ⟨_, bind hC (item hC hclauses) fun d => pure hC [d],
      Reader.possibleItem_of_ne hempty.1 hempty.2⟩

theorem items (left : List Char) : C.Meets (Reader.items left) := by
  induction left with
  | nil =>
      rw [Reader.items_eq]
      refine bind hC (possibleItem hC hclauses) fun here => of_eq fun s => ?_
      by_cases hcomma : s.token = .symbol .comma
      · exact ⟨_, fail hC _, Reader.itemsRest_nil hcomma⟩
      · exact ⟨_, pure hC here, Reader.itemsRest_of_ne hcomma⟩
  | cons c left ih =>
      rw [Reader.items_eq]
      refine bind hC (possibleItem hC hclauses) fun here => of_eq fun s => ?_
      by_cases hcomma : s.token = .symbol .comma
      · refine ⟨_, ?_, Reader.itemsRest_cons hcomma⟩
        exact bind hC (advance hC) fun _ => bind hC ih fun rest => pure hC _
      · exact ⟨_, pure hC here, Reader.itemsRest_of_ne hcomma⟩

theorem query : C.Meets Reader.query := by
  refine bind hC (expectWord hC) fun table s => ?_
  rw [Reader.get_bind]
  refine bind hC (expect hC (.symbol .openBracket)) (fun _ => ?_) s
  refine bind hC (items hC hclauses s.cursor.ahead) fun ds => ?_
  exact bind hC (expect hC (.symbol .closeBracket)) fun _ =>
    bind hC (expect hC .endOfText) fun _ => pure hC _

theorem call (call : Call) : C.Meets call.reader := by
  cases call with
  | expression => exact bind hC (expression hC) fun d => pure hC _
  | directive => exact bind hC (directive hC hclauses) fun d => pure hC _
  | query => exact bind hC (query hC hclauses) fun q => pure hC _

end

end Meets

end Contract

/-! ## Calls that return -/

namespace Reader

variable {s s' : ReaderState}

theorem directive_passes {d : Directive} (h : directive s = .ok d s') :
    ∃ t ts, Passes s (t :: ts) s' := by
  obtain ⟨result, s₁, hitem, h⟩ := bind_eq_ok h
  obtain ⟨_, s₂, hend, h⟩ := bind_eq_ok h
  obtain ⟨rfl, rfl⟩ := pure_eq_ok h
  obtain ⟨n, ts, hpass, -⟩ := item_sound hitem
  have hpassed := hpass.append (.single (expect_eq_ok hend).2)
  obtain ⟨t, ts', hts⟩ := List.exists_cons_of_ne_nil (List.concat_ne_nil s₁.token ts)
  exact ⟨t, ts', hts ▸ hpassed⟩

theorem query_passes {q : Query} (h : query s = .ok q s') : ∃ t ts, Passes s (t :: ts) s' := by
  obtain ⟨table, s₁, htable, h⟩ := bind_eq_ok h
  rw [get_bind] at h
  obtain ⟨_, s₂, hopen, h⟩ := bind_eq_ok h
  obtain ⟨ds, s₃, hitems, h⟩ := bind_eq_ok h
  obtain ⟨_, s₄, hclose, h⟩ := bind_eq_ok h
  obtain ⟨_, s₅, hend, h⟩ := bind_eq_ok h
  obtain ⟨rfl, rfl⟩ := pure_eq_ok h
  obtain ⟨n, ts, hpass, -⟩ := items_sound hitems
  have hclosed := (Passes.single (expect_eq_ok hclose).2).append (.single (expect_eq_ok hend).2)
  exact ⟨_, _, .cons (expectWord_eq_ok htable).2 (.cons (expect_eq_ok hopen).2
    (hpass.append hclosed))⟩

end Reader

namespace Call

variable {s s' : ReaderState} {call : Call} {reply : Reply}

/-- A call that returns has passed a token. -/
theorem exists_passes (h : call.reader s = .ok reply s') :
    ∃ t ts, Reader.Passes s (t :: ts) s' := by
  cases call with
  | expression =>
      obtain ⟨d, s₁, hexpression, h⟩ := Reader.bind_eq_ok h
      obtain ⟨-, rfl⟩ := Reader.pure_eq_ok h
      obtain ⟨ts, hpass, hderives, -⟩ := Reader.expression_sound hexpression
      obtain ⟨t, ts, rfl⟩ := List.exists_cons_of_ne_nil hderives.ne_nil
      exact ⟨t, ts, hpass⟩
  | directive =>
      obtain ⟨d, s₁, hdirective, h⟩ := Reader.bind_eq_ok h
      obtain ⟨-, rfl⟩ := Reader.pure_eq_ok h
      exact Reader.directive_passes hdirective
  | query =>
      obtain ⟨q, s₁, hquery, h⟩ := Reader.bind_eq_ok h
      obtain ⟨-, rfl⟩ := Reader.pure_eq_ok h
      exact Reader.query_passes hquery

/-! ## Histories of calls -/

/-- What every call does to the state, all calls together do to it. -/
theorem relates_runAll {R : ReaderState → ReaderState → Prop} (hrefl : ∀ s, R s s)
    (htrans : ∀ {s s₁ s' : ReaderState}, R s s₁ → R s₁ s' → R s s')
    (hcall : ∀ (call : Call) (s : ReaderState), R s (call.reader.outcome s).2)
    (calls : List Call) (s : ReaderState) : R s (runAll calls s).2 := by
  induction calls generalizing s with
  | nil => exact hrefl s
  | cons call calls ih => exact htrans (hcall call s) (ih _)

end Call

end QueryNotation
