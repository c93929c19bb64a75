import QueryNotation.Proofs.QueryAcceptance

/-!
# How reading could have gone on

A reader that stops at a token that it does not expect has passed tokens
that can be completed: an operand where one is missing, and a closing
symbol for everything that is still open. No level is added by that, so
that what the reader had at its disposal is enough. The induction is the
one that shows what readers accept.
-/

namespace QueryNotation

open BinaryOperator Text

/-- The tokens that completions consist of. -/
def closers : List Token :=
  [.word "a", .symbol .plus, .symbol .closeParen, .symbol .openBracket, .symbol .closeBracket]

namespace Reader

variable {α β : Type} {s s₁ s' : ReaderState} {ts us vs : List Token} {room level : Nat}
  {expected : Expectation} {found : Token} {place : Position}

/-! ## Where errors come from -/

theorem advance_ne_unexpected : advance s ≠ .error (.unexpected expected found place) s' := by
  intro h
  simp only [advance] at h
  split at h <;> cases h

theorem take_ne_unexpected : take s ≠ .error (.unexpected expected found place) s' :=
  advance_ne_unexpected (s := { s with token := .endOfText })

theorem fail_eq_error {e : ReadError} (h : (fail expected : Reader α) s = .error e s') :
    e = .unexpected expected s.token s.start ∧ s' = s := by
  rw [fail_eq] at h
  cases h
  exact ⟨rfl, rfl⟩

theorem expect_eq_unexpected {t : Token}
    (h : expect t s = .error (.unexpected expected found place) s') :
    s.token ≠ t ∧ found = s.token ∧ place = s.start ∧ s' = s := by
  by_cases ht : s.token = t
  · rw [expect_of_eq ht] at h
    exact (advance_ne_unexpected h).elim
  · rw [expect_of_ne ht] at h
    cases h
    exact ⟨ht, rfl, rfl, rfl⟩

theorem restoringDepth_eq_error {x : Reader α} {e : ReadError}
    (h : restoringDepth x s = .error e s') : x s = .error e s' := by
  cases hx : x s with
  | ok a s₁ =>
      rw [restoringDepth_of_ok hx] at h
      cases h
  | error e' s₁ =>
      rw [restoringDepth_of_error hx] at h
      exact h

theorem descend_eq_unexpected {reader : Levels → Reader α}
    (h : descend (deeper room) reader s = .error (.unexpected expected found place) s') :
    ∃ r, room = r + 1 ∧ reader (levels r) (s.atDepth (s.depth + 1)) =
      .error (.unexpected expected found place) s' := by
  cases room with
  | zero =>
      rw [deeper, descend_none] at h
      cases h
  | succ r => exact ⟨r, rfl, descend_some (levels r) reader ▸ h⟩

/-- The reader passed `ts` and stopped before the token that it names. With `us`
it could have gone on. -/
structure Stuck (s s' : ReaderState) (found : Token) (place : Position) (ts us : List Token) :
    Prop where
  passes : Passes s ts (s'.atDepth s.depth)
  found_eq : found = s'.token
  place_eq : place = s'.start
  closes : us ⊆ closers

namespace Stuck

theorem here (h : us ⊆ closers) : Stuck s s s.token s.start [] us := ⟨.nil s, rfl, rfl, h⟩

theorem after (h : Stuck s₁ s' found place us vs) (hpass : Passes s ts s₁) :
    Stuck s s' found place (ts ++ us) vs :=
  ⟨hpass.append (hpass.depth_eq ▸ h.passes), h.found_eq, h.place_eq, h.closes⟩

theorem step (h : Stuck s₁ s' found place ts us) (hadvance : advance s = .ok () s₁) :
    Stuck s s' found place (s.token :: ts) us := h.after (.single hadvance)

theorem close (h : Stuck s s' found place ts us) (hvs : vs ⊆ closers) :
    Stuck s s' found place ts (us ++ vs) :=
  ⟨h.passes, h.found_eq, h.place_eq, List.append_subset.2 ⟨h.closes, hvs⟩⟩

theorem raise {n : Nat} (h : Stuck (s.atDepth n) s' found place ts us) :
    Stuck s s' found place ts us :=
  ⟨by simpa using h.passes.atDepth s.depth, h.found_eq, h.place_eq, h.closes⟩

end Stuck

/-! ## Expressions -/

/-- Whatever the readers of all levels passed before they stopped belongs to an
expression that needs no more than the room. -/
structure Completes (levels : Levels) (room : Nat) : Prop where
  chain : ∀ {level : Nat} {s s' : ReaderState} {expected : Expectation} {found : Token}
    {place : Position}, levels.chain level s = .error (.unexpected expected found place) s' →
      ∃ ts us d, Stuck s s' found place ts us ∧ Derives level (ts ++ us) d ∧ d.cost ≤ room
  chainRest : ∀ {level : Nat} {s s' : ReaderState} {left : Directive} {ts : List Token}
    {expected : Expectation} {found : Token} {place : Position},
      levels.chainRest (level + 1) left s = .error (.unexpected expected found place) s' →
        Derives (level + 1) ts left → ∃ us vs d, Stuck s s' found place us vs ∧
          Derives (level + 1) (ts ++ us ++ vs) d ∧
            d.cost ≤ max left.cost (left.spine (level + 1) + room)

theorem closeParen_closes : [.symbol .closeParen] ⊆ closers := by simp [closers]

theorem operand_closes : [.word "a"] ⊆ closers := by simp [closers]

/-- Arguments that are completed as far as their closing parenthesis. -/
def StuckArguments (room : Nat) (s s' : ReaderState) (found : Token) (place : Position) : Prop :=
  ∃ ts us vs parts, Stuck s s' found place ts us ∧ ts ++ us = vs ++ [.symbol .closeParen] ∧
    CommaJoined parts vs ∧ (∀ p ∈ parts, Derives loosest p.1 p.2) ∧
      Directive.largestCost (parts.map (·.2)) ≤ room

namespace StuckArguments

variable {d : Directive}

theorem none (room : Nat) (s : ReaderState) : StuckArguments room s s s.token s.start :=
  ⟨[], _, [], [], .here closeParen_closes, rfl, .nil, by simp, Nat.zero_le _⟩

theorem last (h : Stuck s s' found place ts us) (hderives : Derives loosest (ts ++ us) d)
    (hcost : d.cost ≤ room) : StuckArguments room s s' found place := by
  refine ⟨ts, us ++ [.symbol .closeParen], ts ++ us, [(ts ++ us, d)], h.close closeParen_closes,
    (List.append_assoc ..).symm, .last _, by simpa using hderives, ?_⟩
  exact Nat.max_le.2 ⟨hcost, Nat.zero_le _⟩

theorem cons (h : StuckArguments room s₁ s' found place)
    (hpass : Passes s (ts ++ [.symbol .comma]) s₁) (hderives : Derives loosest ts d)
    (hcost : d.cost ≤ room) : StuckArguments room s s' found place := by
  obtain ⟨us, vs, ws, parts, hstuck, heq, hjoined, hparts, hcosts⟩ := h
  refine ⟨_, vs, ts ++ .symbol .comma :: ws, (ts, d) :: parts, hstuck.after hpass, ?_,
    .cons _ hjoined, List.forall_mem_cons.2 ⟨hderives, hparts⟩, Nat.max_le.2 ⟨hcost, hcosts⟩⟩
  simp only [List.append_assoc, List.cons_append, List.nil_append, heq]

end StuckArguments

theorem separator_eq_unexpected {s₁ : ReaderState}
    (h : separator s₁ = .error (.unexpected expected found place) s') :
    found = s₁.token ∧ place = s₁.start ∧ s' = s₁ := by
  by_cases hclose : s₁.token = .symbol .closeParen
  · rw [separator_of_close hclose] at h
    cases h
  · rw [separator_of_ne hclose] at h
    exact (expect_eq_unexpected h).2

/-- An argument, what separates it from the next one, and what is read after that. -/
theorem argument_stuck (hcompletes : Completes (levels room) room)
    {k : Directive → Reader (List Directive)}
    (h : ((levels room).chain loosest >>= fun first => separator >>= fun _ => k first) s =
      .error (.unexpected expected found place) s')
    (hclose : ∀ {first s₁}, s₁.token = .symbol .closeParen →
      k first s₁ = .error (.unexpected expected found place) s' →
        found = s₁.token ∧ place = s₁.start ∧ s' = s₁)
    (hcomma : ∀ {first s₂}, k first s₂ = .error (.unexpected expected found place) s' →
      StuckArguments room s₂ s' found place) : StuckArguments room s s' found place := by
  rcases bind_eq_error h with hfirst | ⟨first, s₁, hfirst, h⟩
  · obtain ⟨ts, us, d, hstuck, hderives, hcost⟩ := hcompletes.chain hfirst
    exact .last hstuck hderives hcost
  obtain ⟨ts, hpass, hderives, hcost⟩ := (levels_sound room).chain hfirst
  have hlast : StuckArguments room s s₁ s₁.token s₁.start :=
    .last (Stuck.after (.here (List.nil_subset _)) hpass) (by simpa using hderives) hcost
  rcases bind_eq_error h with hseparator | ⟨_, s₂, hseparator, hk⟩
  · obtain ⟨rfl, rfl, rfl⟩ := separator_eq_unexpected hseparator
    exact hlast
  rcases separator_sound hseparator with ⟨hend, rfl⟩ | ⟨hnext, hadvance⟩
  · obtain ⟨rfl, rfl, rfl⟩ := hclose hend hk
    exact hlast
  · exact (hcomma hk).cons (hpass.append (hnext ▸ .single hadvance)) hderives hcost

theorem arguments_stuck (hcompletes : Completes (levels room) room) {left : List Char}
    (h : arguments (levels room) left s = .error (.unexpected expected found place) s') :
    StuckArguments room s s' found place := by
  have hclosed {s : ReaderState} {left : List Char} (hclose : s.token = .symbol .closeParen) :
      arguments (levels room) left s ≠ .error (.unexpected expected found place) s' := by
    intro h
    rw [arguments_of_close hclose] at h
    rcases bind_eq_error h with h | ⟨_, s₁, -, h⟩
    · exact advance_ne_unexpected h
    · cases h
  induction left generalizing s with
  | nil =>
      rw [arguments_of_ne fun hclose => hclosed hclose h] at h
      apply argument_stuck hcompletes h
      · intro first s₁ _ hfail
        obtain ⟨he, rfl⟩ := fail_eq_error hfail
        cases he
        exact ⟨rfl, rfl, rfl⟩
      · intro first s₂ hfail
        obtain ⟨he, rfl⟩ := fail_eq_error hfail
        cases he
        exact .none room _
  | cons c left ih =>
      rw [arguments_of_ne fun hclose => hclosed hclose h] at h
      apply argument_stuck hcompletes h
      · intro first s₁ hclose hrest
        rcases bind_eq_error hrest with hrest | ⟨rest, s₂, -, hrest⟩
        · exact (hclosed hclose hrest).elim
        · cases hrest
      · intro first s₂ hrest
        rcases bind_eq_error hrest with hrest | ⟨rest, s₃, -, hrest⟩
        · exact ih hrest
        · cases hrest

abbrev CompletesBelow (room : Nat) : Prop := ∀ r, room = r + 1 → Completes (levels r) r

theorem inner_stuck (hbelow : CompletesBelow room)
    (h : restoringDepth (descend (deeper room) fun levels => levels.chain level) s =
      .error (.unexpected expected found place) s') :
    ∃ ts us d, Stuck s s' found place ts us ∧ Derives level (ts ++ us) d ∧ 1 + d.cost ≤ room := by
  obtain ⟨r, rfl, hchain⟩ := descend_eq_unexpected (restoringDepth_eq_error h)
  obtain ⟨ts, us, d, hstuck, hderives, hcost⟩ := (hbelow r rfl).chain hchain
  exact ⟨ts, us, d, hstuck.raise, hderives, by omega⟩

theorem afterName_stuck (hbelow : CompletesBelow room) {name : String}
    (h : afterName (deeper room) name s = .error (.unexpected expected found place) s') :
    ∃ ts us d, Stuck s s' found place ts us ∧ Derives 0 (.word name :: (ts ++ us)) d ∧
      d.cost ≤ room := by
  by_cases hopen : s.token = .symbol .openParen
  · rw [afterName_of_open hopen] at h
    rcases bind_eq_error h with h | ⟨_, s₁, hadvance, h⟩
    · exact (advance_ne_unexpected h).elim
    rcases bind_eq_error h with h | ⟨ds, s₂, -, h⟩
    · obtain ⟨r, rfl, harguments⟩ := descend_eq_unexpected (restoringDepth_eq_error h)
      rw [callArguments, get_bind] at harguments
      obtain ⟨ts, us, vs, parts, hstuck, heq, hjoined, hparts, hcost⟩ :=
        arguments_stuck (hbelow r rfl) harguments
      refine ⟨_, us, .call name (parts.map (·.2)), hstuck.raise.step hadvance, ?_, ?_⟩
      · rw [hopen, List.cons_append, heq]
        exact .call name parts hjoined hparts
      · rw [Directive.cost]
        omega
    · cases h
  · rw [afterName_of_ne hopen] at h
    cases h

/-- Where an operand is missing, one is put. -/
theorem operand_stuck (h : (fail .expression : Reader Directive) s =
    .error (.unexpected expected found place) s') :
    ∃ ts us d, Stuck s s' found place ts us ∧ Derives 0 (ts ++ us) d ∧ d.cost ≤ room := by
  obtain ⟨he, rfl⟩ := fail_eq_error h
  cases he
  exact ⟨[], _, _, .here operand_closes, .column "a", Nat.zero_le _⟩

theorem take_bind_stuck {x : Unit → Reader Directive}
    (h : (take >>= x) s = .error (.unexpected expected found place) s') :
    ∃ s₁, advance s = .ok () s₁ ∧ x () s₁ = .error (.unexpected expected found place) s' := by
  rcases bind_eq_error h with h | ⟨_, s₁, htake, h⟩
  · exact (take_ne_unexpected h).elim
  · exact ⟨s₁, take_eq_ok_iff.1 htake, h⟩

theorem primary_stuck (hbelow : CompletesBelow room)
    (h : primary (deeper room) s = .error (.unexpected expected found place) s') :
    ∃ ts us d, Stuck s s' found place ts us ∧ Derives 0 (ts ++ us) d ∧ d.cost ≤ room := by
  cases ht : s.token with
  | literal value =>
      rw [primary_of_literal ht] at h
      obtain ⟨s₁, -, h⟩ := take_bind_stuck h
      cases h
  | word name =>
      rw [primary_of_word ht] at h
      obtain ⟨s₁, hadvance, h⟩ := take_bind_stuck h
      obtain ⟨ts, us, d, hstuck, hderives, hcost⟩ := afterName_stuck hbelow h
      exact ⟨_, us, d, hstuck.step hadvance, ht ▸ hderives, hcost⟩
  | endOfText =>
      rw [primary, get_bind, ht] at h
      exact operand_stuck h
  | symbol symbol =>
      cases symbol with
      | and =>
          rw [primary_of_and ht] at h
          obtain ⟨s₁, -, h⟩ := take_bind_stuck h
          cases h
      | or =>
          rw [primary_of_or ht] at h
          obtain ⟨s₁, -, h⟩ := take_bind_stuck h
          cases h
      | openParen =>
          rw [primary_of_openParen ht] at h
          obtain ⟨s₁, hadvance, h⟩ := take_bind_stuck h
          rcases bind_eq_error h with hinner | ⟨inner, s₂, hinner, h⟩
          · obtain ⟨ts, us, d, hstuck, hderives, hcost⟩ := inner_stuck hbelow hinner
            refine ⟨_, us ++ [.symbol .closeParen], .group d,
              (hstuck.step hadvance).close closeParen_closes, ?_, hcost⟩
            rw [ht, List.cons_append, ← List.append_assoc]
            exact .group hderives
          rcases bind_eq_error h with hclose | ⟨_, s₃, -, h⟩
          · obtain ⟨-, rfl, rfl, rfl⟩ := expect_eq_unexpected hclose
            obtain ⟨ts, hpass, hderives, hcost⟩ :=
              inner_sound (fun r _ => levels_sound r) hinner
            refine ⟨_, [.symbol .closeParen], .group inner,
              ((Stuck.here closeParen_closes).after hpass).step hadvance, ?_, hcost⟩
            rw [ht, List.append_nil]
            exact .group hderives
          · cases h
      | _ =>
          rw [primary, get_bind, ht] at h
          exact operand_stuck h

theorem prefixed_stuck (hbelow : CompletesBelow room)
    (h : prefixed (deeper room) s = .error (.unexpected expected found place) s') :
    ∃ ts us d, Stuck s s' found place ts us ∧ Derives 0 (ts ++ us) d ∧ d.cost ≤ room := by
  cases hop : UnaryOperator.ofToken? s.token with
  | none =>
      rw [prefixed_of_none hop] at h
      exact primary_stuck hbelow h
  | some op =>
      rw [prefixed_of_some hop] at h
      rcases bind_eq_error h with h | ⟨_, s₁, hadvance, h⟩
      · exact (advance_ne_unexpected h).elim
      rcases bind_eq_error h with hoperand | ⟨operand, s₂, -, h⟩
      · obtain ⟨ts, us, d, hstuck, hderives, hcost⟩ := inner_stuck hbelow hoperand
        exact ⟨_, us, .unary op d, hstuck.step hadvance, .unary hop hderives, hcost⟩
      · cases h

theorem chainRest_stuck (hbelow : CompletesBelow room) {left : Directive}
    (h : chainRest (deeper room) (level + 1) left s = .error (.unexpected expected found place) s')
    (hleft : Derives (level + 1) ts left) :
    ∃ us vs d, Stuck s s' found place us vs ∧ Derives (level + 1) (ts ++ us ++ vs) d ∧
      d.cost ≤ max left.cost (left.spine (level + 1) + room) := by
  cases hop : atLevel? (level + 1) s.token with
  | none =>
      rw [chainRest_of_none hop] at h
      cases h
  | some op =>
      rw [chainRest_of_some hop] at h
      rcases bind_eq_error h with h | ⟨_, s₁, hadvance, h⟩
      · exact (advance_ne_unexpected h).elim
      obtain ⟨r, rfl, hdescend⟩ := descend_eq_unexpected h
      have hlevel := (atLevel?_eq_some_iff.1 hop).2
      rcases bind_eq_error hdescend with hright | ⟨right, s₂, hright, hrest⟩
      · obtain ⟨us, vs, d, hstuck, hderives, hcost⟩ := (hbelow r rfl).chain hright
        refine ⟨_, vs, .binary op left d, hstuck.raise.step hadvance, ?_, ?_⟩
        · simpa using Derives.binary hleft hop hderives
        · rw [Directive.cost, hlevel]
          omega
      · obtain ⟨us, hpass, hderives, hcost⟩ := (levels_sound r).chain hright
        have hbinary := Derives.binary hleft hop hderives
        obtain ⟨vs, ws, d, hstuck, hderives', hcost'⟩ := (hbelow r rfl).chainRest hrest hbinary
        refine ⟨_, ws, d, (hstuck.after hpass).raise.step hadvance, ?_, ?_⟩
        · simpa using hderives'
        · rw [Directive.cost, Directive.spine, if_pos hlevel, hlevel] at hcost'
          omega

theorem chain_stuck (hbelow : CompletesBelow room)
    (h : chain (deeper room) level s = .error (.unexpected expected found place) s') :
    ∃ ts us d, Stuck s s' found place ts us ∧ Derives level (ts ++ us) d ∧ d.cost ≤ room := by
  induction level generalizing s with
  | zero => exact prefixed_stuck hbelow h
  | succ level ih =>
      rw [chain_succ] at h
      rcases bind_eq_error (restoringDepth_eq_error h) with hleft | ⟨left, s₁, hleft, hrest⟩
      · obtain ⟨ts, us, d, hstuck, hderives, hcost⟩ := ih hleft
        exact ⟨ts, us, d, hstuck, hderives.lift, hcost⟩
      · obtain ⟨ts, hpass, hderives, hcost⟩ := chain_sound (fun r _ => levels_sound r) hleft
        obtain ⟨us, vs, d, hstuck, hderives', hcost'⟩ := chainRest_stuck hbelow hrest hderives.lift
        refine ⟨_, vs, d, hstuck.after hpass, hderives', ?_⟩
        rw [hderives.spine_eq_zero (Nat.lt_succ_self level)] at hcost'
        omega

theorem levels_completes (room : Nat) : Completes (levels room) room := by
  induction room with
  | zero =>
      have hbelow : CompletesBelow 0 := fun r hr => by omega
      exact ⟨chain_stuck hbelow, chainRest_stuck hbelow⟩
  | succ room ih =>
      have hbelow : CompletesBelow (room + 1) := by
        rintro r hr
        cases hr
        exact ih
      exact ⟨chain_stuck hbelow, chainRest_stuck hbelow⟩

theorem expression_stuck (h : expression s = .error (.unexpected expected found place) s') :
    ∃ ts us d, Stuck s s' found place ts us ∧ Derives loosest (ts ++ us) d ∧
      d.cost ≤ maxDepth - s.depth := by
  rw [expression, get_bind] at h
  exact (levels_completes _).chain h

/-! ## Items and queries -/

theorem asItem_ne_unexpected {word : String} {e : Directive} {p : Position} :
    asItem word p e s ≠ .error (.unexpected expected found place) s' := by
  intro h
  obtain ⟨arguments, -, hclause, -⟩ := asItem_eq_error h
  rcases clauseOfCall_eq_error hclause with he | ⟨key, direction, -, -, he⟩ <;> cases he

theorem Stuck.head?_ne {t : Token} (h : Stuck s s' found place ts us) (hs : s.token ≠ t)
    (ht : t ∉ closers) : (ts ++ us).head? ≠ some t := by
  intro hhead
  cases ts with
  | nil => exact ht (h.closes (List.mem_of_mem_head? hhead))
  | cons u ts =>
      cases hhead
      exact hs h.passes.cons_inv.1

/-- An operator keeps a call from being read as a clause. -/
theorem derives_call_plus {name : String} {arguments : List Directive}
    (h : Derives loosest ts (.call name arguments)) :
    Derives loosest (ts ++ [.symbol .plus, .word "a"])
      (.binary .plus (.call name arguments) (.column "a")) := by
  obtain ⟨us, parts, rfl, hjoined, hparts, rfl⟩ := h.call_inv
  have hcall := (Derives.call name parts hjoined hparts).mono (Nat.zero_le 2)
  have hoperand := (Derives.column "a").mono (Nat.zero_le 1)
  have hplus : atLevel? 2 (.symbol .plus) = some .plus := rfl
  exact (Derives.binary hcall hplus hoperand).mono (by decide)

theorem expression_stuck_item (h : expression s = .error (.unexpected expected found place) s')
    (hdistinct : s.token ≠ .word "distinct") (hall : s.token ≠ .word "all") :
    ∃ n ts us d, Stuck s s' found place ts us ∧ DerivesItem n (ts ++ us) d ∧
      n ≤ maxDepth - s.depth := by
  have hitem {ts us : List Token} {e : Directive} (hstuck : Stuck s s' found place ts us)
      (hderives : Derives loosest (ts ++ us) e) (he : ¬ e.IsClauseCall) :
      DerivesItem e.cost (ts ++ us) e :=
    .expression hderives (hstuck.head?_ne hdistinct (by simp [closers]))
      (hstuck.head?_ne hall (by simp [closers])) (.other he)
  obtain ⟨ts, us, e, hstuck, hderives, hcost⟩ := expression_stuck h
  by_cases he : e.IsClauseCall
  · cases e with
    | call name arguments =>
        have hcloses : [.symbol .plus, .word "a"] ⊆ closers := by simp [closers]
        have hplus := hstuck.close hcloses
        refine ⟨_, ts, _, .binary .plus (.call name arguments) (.column "a"), hplus,
          hitem hplus ?_ id, ?_⟩
        · rw [← List.append_assoc]
          exact derives_call_plus hderives
        · rw [Directive.cost] at hcost
          simp only [Directive.cost, Directive.spine]
          omega
    | _ => exact he.elim
  · exact ⟨_, ts, us, e, hstuck, hitem hstuck hderives he, hcost⟩

theorem item_stuck (h : item s = .error (.unexpected expected found place) s') :
    ∃ n ts us d, Stuck s s' found place ts us ∧ DerivesItem n (ts ++ us) d ∧
      n ≤ maxDepth - s.depth := by
  have hmarker {d : Directive} : (advance >>= fun _ => pure d) s ≠
      .error (.unexpected expected found place) s' := by
    intro h
    rcases bind_eq_error h with h | ⟨_, s₁, -, h⟩
    · exact advance_ne_unexpected h
    · cases h
  by_cases hdistinct : s.token = .word "distinct"
  · exact (hmarker (item_of_distinct hdistinct ▸ h)).elim
  by_cases hall : s.token = .word "all"
  · exact (hmarker (item_of_all hall ▸ h)).elim
  by_cases hclause : ∃ word, s.token = .word word ∧ word ∈ clauseNames
  · obtain ⟨word, ht, hword⟩ := hclause
    rw [item_of_clauseWord ht hword] at h
    rcases bind_eq_error h with h | ⟨e, s₁, -, h⟩
    · exact expression_stuck_item h hdistinct hall
    · exact (asItem_ne_unexpected h).elim
  · rw [item_of_expression hdistinct hall fun word ht hword => hclause ⟨word, ht, hword⟩] at h
    exact expression_stuck_item h hdistinct hall

theorem possibleItem_stuck (h : possibleItem s = .error (.unexpected expected found place) s') :
    ∃ n ts us ds, Stuck s s' found place ts us ∧ DerivesSlot n (ts ++ us) ds ∧
      n ≤ maxDepth - s.depth := by
  by_cases hempty : s.token = .symbol .closeBracket ∨ s.token = .symbol .comma
  · rw [possibleItem_of_empty hempty] at h
    cases h
  · rw [not_or] at hempty
    rw [possibleItem_of_ne hempty.1 hempty.2] at h
    rcases bind_eq_error h with h | ⟨d, s₁, -, h⟩
    · obtain ⟨n, ts, us, d, hstuck, hderives, hn⟩ := item_stuck h
      exact ⟨n, ts, us, [d], hstuck, .item hderives, hn⟩
    · cases h

theorem items_stuck {left : List Char}
    (h : items left s = .error (.unexpected expected found place) s') :
    ∃ n ts us ds, Stuck s s' found place ts us ∧ DerivesItems n (ts ++ us) ds ∧
      n ≤ maxDepth - s.depth := by
  induction left generalizing s with
  | nil =>
      rw [items_eq] at h
      rcases bind_eq_error h with h | ⟨here, s₁, hhere, h⟩
      · obtain ⟨n, ts, us, ds, hstuck, hslot, hn⟩ := possibleItem_stuck h
        exact ⟨n, ts, us, ds, hstuck, .last hslot, hn⟩
      by_cases hcomma : s₁.token = .symbol .comma
      · rw [itemsRest_nil hcomma] at h
        obtain ⟨he, rfl⟩ := fail_eq_error h
        cases he
        obtain ⟨n, ts, hpass, hslot, hn⟩ := possibleItem_sound hhere
        have hstuck := (Stuck.here (List.nil_subset _)).after hpass
        exact ⟨n, _, [], here, hstuck, .last (by simpa using hslot), hn⟩
      · rw [itemsRest_of_ne hcomma] at h
        cases h
  | cons c left ih =>
      rw [items_eq] at h
      rcases bind_eq_error h with h | ⟨here, s₁, hhere, h⟩
      · obtain ⟨n, ts, us, ds, hstuck, hslot, hn⟩ := possibleItem_stuck h
        exact ⟨n, ts, us, ds, hstuck, .last hslot, hn⟩
      by_cases hcomma : s₁.token = .symbol .comma
      · rw [itemsRest_cons hcomma] at h
        rcases bind_eq_error h with h | ⟨_, s₂, hadvance, h⟩
        · exact (advance_ne_unexpected h).elim
        rcases bind_eq_error h with h | ⟨rest, s₃, -, h⟩
        · obtain ⟨m, ts, hpass, hslot, hm⟩ := possibleItem_sound hhere
          obtain ⟨n, us, vs, ds, hstuck, hderives, hn⟩ := ih h
          have hdepth : s₂.depth = s.depth := by
            rw [(advance_eq_ok hadvance).2.2, hpass.depth_eq]
          refine ⟨max m n, _, vs, here ++ ds, (hstuck.step hadvance).after hpass, ?_, by omega⟩
          rw [hcomma, List.append_assoc, List.cons_append]
          exact .cons hslot hderives
        · cases h
      · rw [itemsRest_of_ne hcomma] at h
        cases h

theorem expectWord_eq_unexpected
    (h : expectWord s = .error (.unexpected expected found place) s') :
    found = s.token ∧ place = s.start ∧ s' = s := by
  cases ht : s.token with
  | word name =>
      rw [expectWord_of_word ht] at h
      rcases bind_eq_error h with h | ⟨_, s₁, -, h⟩
      · exact (take_ne_unexpected h).elim
      · cases h
  | literal | symbol | endOfText =>
      rw [expectWord, get_bind, ht] at h
      obtain ⟨he, rfl⟩ := fail_eq_error h
      cases he
      exact ⟨ht, rfl, rfl⟩

theorem query_stuck (h : query s = .error (.unexpected expected found place) s') :
    ∃ n ts us q, Stuck s s' found place ts us ∧ DerivesQuery n (ts ++ us) q ∧
      n ≤ maxDepth - s.depth := by
  have hempty : DerivesItems 0 [] [] := .last .empty
  rcases bind_eq_error h with h | ⟨table, s₁, htable, h⟩
  · obtain ⟨rfl, rfl, rfl⟩ := expectWord_eq_unexpected h
    exact ⟨0, [], [.word "a", .symbol .openBracket, .symbol .closeBracket], _,
      .here (by simp [closers]), .mk "a" hempty, Nat.zero_le _⟩
  obtain ⟨hword, hadvance⟩ := expectWord_eq_ok htable
  rw [get_bind] at h
  rcases bind_eq_error h with h | ⟨_, s₂, hopen, h⟩
  · obtain ⟨-, rfl, rfl, rfl⟩ := expect_eq_unexpected h
    have hcloses : [.symbol .openBracket, .symbol .closeBracket] ⊆ closers := by simp [closers]
    have hstuck := (Stuck.here hcloses).step hadvance
    rw [hword] at hstuck
    exact ⟨0, _, _, _, hstuck, .mk table hempty, Nat.zero_le _⟩
  obtain ⟨hopen, hadvance₁⟩ := expect_eq_ok hopen
  have hdepth : s₂.depth = s.depth := by
    rw [(advance_eq_ok hadvance₁).2.2, (advance_eq_ok hadvance).2.2]
  have hbracket : [.symbol .closeBracket] ⊆ closers := by simp [closers]
  rcases bind_eq_error h with h | ⟨ds, s₃, hitems, h⟩
  · obtain ⟨n, ts, us, ds, hstuck, hderives, hn⟩ := items_stuck h
    have hquery := ((hstuck.close hbracket).step hadvance₁).step hadvance
    rw [hword, hopen] at hquery
    refine ⟨n, _, _, (Query.new table).appendAll ds, hquery, ?_, hdepth ▸ hn⟩
    rw [List.cons_append, List.cons_append, ← List.append_assoc]
    exact .mk table hderives
  obtain ⟨n, ts, hpass, hderives, hn⟩ := items_sound hitems
  rcases bind_eq_error h with h | ⟨_, s₄, hclose, h⟩
  · obtain ⟨-, rfl, rfl, rfl⟩ := expect_eq_unexpected h
    have hquery := (((Stuck.here hbracket).after hpass).step hadvance₁).step hadvance
    rw [hword, hopen, List.append_nil] at hquery
    exact ⟨n, _, _, _, hquery, .mk table hderives, hdepth ▸ hn⟩
  obtain ⟨hbracketed, hadvance₂⟩ := expect_eq_ok hclose
  rcases bind_eq_error h with h | ⟨_, s₅, -, h⟩
  · obtain ⟨-, rfl, rfl, rfl⟩ := expect_eq_unexpected h
    have hitems := ((Stuck.here (List.nil_subset _)).step hadvance₂).after hpass
    have hquery := (hitems.step hadvance₁).step hadvance
    rw [hword, hopen, hbracketed] at hquery
    refine ⟨n, _, [], (Query.new table).appendAll ds, hquery, ?_, hdepth ▸ hn⟩
    rw [List.append_nil]
    exact .mk table hderives
  · cases h

end Reader

end QueryNotation
