import QueryNotation.Reader.Expression

/-!
# Laws of readers

Equations for the combinators of readers and for the readers of
expressions. The proofs about readers take them apart with these laws,
and do not unfold the readers themselves.
-/

namespace QueryNotation

/-- The same state at another depth. -/
def ReaderState.atDepth (s : ReaderState) (depth : Nat) : ReaderState := { s with depth }

namespace ReaderState

variable (s : ReaderState) (m n : Nat)

@[simp] theorem token_atDepth : (s.atDepth n).token = s.token := rfl

@[simp] theorem cursor_atDepth : (s.atDepth n).cursor = s.cursor := rfl

@[simp] theorem start_atDepth : (s.atDepth n).start = s.start := rfl

@[simp] theorem depth_atDepth : (s.atDepth n).depth = n := rfl

@[simp] theorem atDepth_atDepth : (s.atDepth m).atDepth n = s.atDepth n := rfl

@[simp] theorem atDepth_depth : s.atDepth s.depth = s := rfl

theorem atDepth_of_depth_eq {s : ReaderState} {n : Nat} (h : s.depth = n) :
    s.atDepth n = s := by
  subst h
  rfl

end ReaderState

namespace Reader

variable {α β : Type} {s s₁ s' : ReaderState}

/-! ## Laws of the combinators -/

theorem bind_of_ok {x : Reader α} {f : α → Reader β} {a : α} (h : x s = .ok a s₁) :
    (x >>= f) s = f a s₁ := by
  change EStateM.bind x f s = _
  rw [EStateM.bind, h]

theorem bind_of_error {x : Reader α} {f : α → Reader β} {e : ReadError}
    (h : x s = .error e s₁) : (x >>= f) s = .error e s₁ := by
  change EStateM.bind x f s = _
  rw [EStateM.bind, h]

theorem bind_of_eq {x y : Reader α} {f : α → Reader β} (h : x s = y s) :
    (x >>= f) s = (y >>= f) s := by
  change EStateM.bind x f s = EStateM.bind y f s
  rw [EStateM.bind, EStateM.bind, h]

theorem bind_congr_of_ok {x : Reader α} {f g : α → Reader β}
    (h : ∀ a s₁, x s = .ok a s₁ → f a s₁ = g a s₁) : (x >>= f) s = (x >>= g) s := by
  cases hx : x s with
  | ok a s₁ => rw [bind_of_ok hx, bind_of_ok hx, h a s₁ hx]
  | error e s₁ => rw [bind_of_error hx, bind_of_error hx]

theorem get_bind (f : ReaderState → Reader α) :
    ((get : Reader ReaderState) >>= f) s = f s s := rfl

theorem bind_eq_ok {x : Reader α} {f : α → Reader β} {b : β}
    (h : (x >>= f) s = .ok b s') : ∃ a s₁, x s = .ok a s₁ ∧ f a s₁ = .ok b s' := by
  cases hx : x s with
  | ok a s₁ => exact ⟨a, s₁, rfl, bind_of_ok (f := f) hx ▸ h⟩
  | error e s₁ =>
      rw [bind_of_error hx] at h
      cases h

theorem bind_eq_error {x : Reader α} {f : α → Reader β} {e : ReadError}
    (h : (x >>= f) s = .error e s') :
    x s = .error e s' ∨ ∃ a s₁, x s = .ok a s₁ ∧ f a s₁ = .error e s' := by
  cases hx : x s with
  | ok a s₁ =>
      rw [bind_of_ok hx] at h
      exact .inr ⟨a, s₁, rfl, h⟩
  | error e' s₁ =>
      rw [bind_of_error hx] at h
      cases h
      exact .inl rfl

theorem pure_eq_ok {a b : α} (h : (pure a : Reader α) s = .ok b s') : a = b ∧ s = s' := by
  cases h
  exact ⟨rfl, rfl⟩

theorem fail_eq (expected : Expectation) :
    (fail expected : Reader α) s = .error (.unexpected expected s.token s.start) s := rfl

theorem expect_of_eq {t : Token} (h : s.token = t) : expect t s = advance s := by
  change (if s.token = t then advance else fail (.token t)) s = _
  rw [if_pos h]

theorem expect_of_ne {t : Token} (h : s.token ≠ t) :
    expect t s = .error (.unexpected (.token t) s.token s.start) s := by
  change (if s.token = t then advance else fail (.token t)) s = _
  rw [if_neg h, fail_eq]

theorem expect_eq_ok {t : Token} (h : expect t s = .ok () s') :
    s.token = t ∧ advance s = .ok () s' := by
  by_cases ht : s.token = t
  · exact ⟨ht, expect_of_eq ht ▸ h⟩
  · rw [expect_of_ne ht] at h
    cases h

theorem advance_eq_ok (h : advance s = .ok () s') :
    Lexer.next s.cursor = .ok s'.token s'.cursor ∧ s'.start = s.cursor.skipBlanks.place ∧
      s'.depth = s.depth := by
  simp only [advance] at h
  split at h
  next token cursor hnext =>
    cases h
    exact ⟨hnext, rfl, rfl⟩
  next => cases h

theorem advance_of_next {t : Token} {stop : Text.Cursor} (h : Lexer.next s.cursor = .ok t stop) :
    advance s = .ok () { s with cursor := stop, token := t, start := s.cursor.skipBlanks.place } := by
  simp only [advance, h]

theorem advance_of_fault {e : LexError} {stop : Text.Cursor}
    (h : Lexer.next s.cursor = .error e stop) : advance s =
      .error (.lexical e) { s with cursor := stop, start := s.cursor.skipBlanks.place } := by
  simp only [advance, h]

theorem advance_atDepth (n : Nat) (h : advance s = .ok () s') :
    advance (s.atDepth n) = .ok () (s'.atDepth n) := by
  simp only [advance] at h
  split at h
  next token cursor hnext =>
    cases h
    exact advance_of_next hnext
  next => cases h

/-- On success, giving the token away first makes no difference. -/
theorem take_eq_ok_iff : take s = .ok () s' ↔ advance s = .ok () s' := by
  change advance { s with token := .endOfText } = _ ↔ _
  simp only [advance]
  split <;> simp

theorem restoringDepth_of_ok {x : Reader α} {a : α} (h : x s = .ok a s₁) :
    restoringDepth x s = .ok a (s₁.atDepth s.depth) := by
  change (x >>= fun a => modify (fun s₁ => s₁.atDepth s.depth) >>= fun _ => pure a) s = _
  rw [bind_of_ok h]
  rfl

theorem restoringDepth_of_error {x : Reader α} {e : ReadError} (h : x s = .error e s₁) :
    restoringDepth x s = .error e s₁ := by
  change (x >>= fun a => modify (fun s₁ => s₁.atDepth s.depth) >>= fun _ => pure a) s = _
  rw [bind_of_error h]

theorem restoringDepth_eq_ok {x : Reader α} {a : α} (h : restoringDepth x s = .ok a s') :
    ∃ s₁, x s = .ok a s₁ ∧ s' = s₁.atDepth s.depth := by
  cases hx : x s with
  | ok b s₁ =>
      rw [restoringDepth_of_ok hx] at h
      cases h
      exact ⟨s₁, rfl, rfl⟩
  | error e s₁ =>
      rw [restoringDepth_of_error hx] at h
      cases h

theorem descend_none (reader : Levels → Reader α) :
    descend none reader s = .error (.tooDeep s.start) (s.atDepth (s.depth + 1)) := rfl

theorem descend_some (levels : Levels) (reader : Levels → Reader α) :
    descend (some levels) reader s = reader levels (s.atDepth (s.depth + 1)) := rfl

/-! ## Readers of expressions -/

open BinaryOperator

variable {below : Option Levels} {level : Nat}

theorem chainRest_of_none {left : Directive} (h : atLevel? level s.token = none) :
    chainRest below level left s = .ok left s := by
  rw [chainRest, get_bind, h]
  rfl

theorem chainRest_of_some {left : Directive} {op : BinaryOperator}
    (h : atLevel? level s.token = some op) :
    chainRest below level left s = (advance >>= fun _ => descend below fun levels =>
      levels.chain (level - 1) >>= fun right =>
        levels.chainRest level (.binary op left right)) s := by
  rw [chainRest, get_bind, h]

theorem prefixed_of_none (h : UnaryOperator.ofToken? s.token = none) :
    prefixed below s = primary below s := by
  rw [prefixed, get_bind, h]

theorem prefixed_of_some {op : UnaryOperator} (h : UnaryOperator.ofToken? s.token = some op) :
    prefixed below s = (advance >>= fun _ =>
      restoringDepth (descend below fun levels => levels.chain 0) >>= fun operand =>
        pure (.unary op operand)) s := by
  rw [prefixed, get_bind, h]

theorem primary_of_literal {value : Value} (h : s.token = .literal value) :
    primary below s = (take >>= fun _ => pure (.constant value)) s := by
  rw [primary, get_bind, h]

theorem primary_of_and (h : s.token = .symbol .and) :
    primary below s = (take >>= fun _ => pure (.column "and")) s := by
  rw [primary, get_bind, h]

theorem primary_of_or (h : s.token = .symbol .or) :
    primary below s = (take >>= fun _ => pure (.column "or")) s := by
  rw [primary, get_bind, h]

/-- Reads on after a name, which is a column unless arguments follow. -/
def afterName (below : Option Levels) (name : String) : Reader Directive := do
  if (← get).token = .symbol .openParen then
    advance
    let arguments ← restoringDepth (descend below callArguments)
    pure (.call name arguments)
  else
    pure (.column name)

theorem afterName_of_open {name : String} (h : s.token = .symbol .openParen) :
    afterName below name s = (advance >>= fun _ => restoringDepth (descend below callArguments) >>=
      fun arguments => pure (.call name arguments)) s := by
  rw [afterName, get_bind, if_pos h]

theorem afterName_of_ne {name : String} (h : s.token ≠ .symbol .openParen) :
    afterName below name s = .ok (.column name) s := by
  rw [afterName, get_bind, if_neg h]
  rfl

theorem primary_of_word {name : String} (h : s.token = .word name) :
    primary below s = (take >>= fun _ => afterName below name) s := by
  rw [primary, get_bind, h]
  rfl

theorem primary_of_column {name : String} (h : s.token = .word name) (htake : take s = .ok () s₁)
    (hnext : s₁.token ≠ .symbol .openParen) : primary below s = .ok (.column name) s₁ := by
  rw [primary_of_word h, bind_of_ok htake, afterName_of_ne hnext]

theorem primary_of_call {name : String} (h : s.token = .word name) (htake : take s = .ok () s₁)
    (hnext : s₁.token = .symbol .openParen) :
    primary below s = (advance >>= fun _ => restoringDepth (descend below callArguments) >>=
      fun arguments => pure (.call name arguments)) s₁ := by
  rw [primary_of_word h, bind_of_ok htake, afterName_of_open hnext]

theorem primary_of_word_error {name : String} {e : ReadError} (h : s.token = .word name)
    (htake : take s = .error e s₁) : primary below s = .error e s₁ := by
  rw [primary_of_word h, bind_of_error htake]

theorem primary_of_openParen (h : s.token = .symbol .openParen) :
    primary below s = (take >>= fun _ =>
      restoringDepth (descend below fun levels => levels.chain loosest) >>= fun inner =>
        expect (.symbol .closeParen) >>= fun _ => pure (.group inner)) s := by
  rw [primary, get_bind, h]

theorem chain_succ : chain below (level + 1) =
    restoringDepth (chain below level >>= chainRest below (level + 1)) := rfl

/-- Passes over the comma after an argument, if the arguments go on. -/
def separator : Reader Unit := do
  if (← get).token ≠ .symbol .closeParen then expect (.symbol .comma)

theorem separator_of_close (h : s.token = .symbol .closeParen) : separator s = .ok () s := by
  rw [separator, get_bind, if_neg (not_not_intro h)]
  rfl

theorem separator_of_ne (h : s.token ≠ .symbol .closeParen) :
    separator s = expect (.symbol .comma) s := by
  rw [separator, get_bind, if_pos h]

theorem arguments_of_close {levels : Levels} {left : List Char}
    (h : s.token = .symbol .closeParen) :
    arguments levels left s = (advance >>= fun _ => pure []) s := by
  unfold arguments
  rw [get_bind, if_pos h]

theorem arguments_of_ne {levels : Levels} {left : List Char}
    (h : s.token ≠ .symbol .closeParen) :
    arguments levels left s = (levels.chain loosest >>= fun first => separator >>= fun _ =>
      match left with
      | [] => fail (.token (.symbol .closeParen))
      | _ :: left => arguments levels left >>= fun rest => pure (first :: rest)) s := by
  conv => lhs; unfold arguments
  rw [get_bind, if_neg h]
  refine congrFun (bind_congr fun first => funext fun s₁ => ?_) s
  by_cases hclose : s₁.token = .symbol .closeParen
  · rw [bind_of_ok (separator_of_close hclose)]
    cases left <;> rw [get_bind, if_neg (not_not_intro hclose)]
  · rw [bind_of_eq (separator_of_ne hclose)]
    cases left <;> rw [get_bind, if_pos hclose]

end Reader

end QueryNotation
