import QueryNotation.Proofs.Grammar
import QueryNotation.Proofs.TokenPassing

/-!
# What the readers of expressions accept

Every run that succeeds passes over tokens of the grammar, and its result
is the tree of these tokens. The number of levels that the run has at its
disposal bounds the cost of the tree. The induction is on that number. In
a chain every operator passed takes one level of it, so that the operators
on the spine and the levels left keep their sum.
-/

namespace QueryNotation.Reader

open BinaryOperator

variable {s s' : ReaderState} {room level : Nat} {d : Directive}

/-- The readers of all levels accept expressions only, and a chain that is
read on from a left operand continues that operand. -/
structure Sound (levels : Levels) (room : Nat) : Prop where
  chain : ∀ {level : Nat} {s s' : ReaderState} {d : Directive},
    levels.chain level s = .ok d s' →
      ∃ ts, Passes s ts s' ∧ Derives level ts d ∧ d.cost ≤ room
  chainRest : ∀ {level : Nat} {s s' : ReaderState} {left d : Directive} {ts : List Token},
    levels.chainRest (level + 1) left s = .ok d s' → Derives (level + 1) ts left →
      ∃ us, Passes s us (s'.atDepth s.depth) ∧ Derives (level + 1) (ts ++ us) d ∧
        d.cost ≤ max left.cost (left.spine (level + 1) + room)

theorem separator_sound {s₁ s₂ : ReaderState} (h : separator s₁ = .ok () s₂) :
    (s₁.token = .symbol .closeParen ∧ s₂ = s₁) ∨
      (s₁.token = .symbol .comma ∧ advance s₁ = .ok () s₂) := by
  by_cases hclose : s₁.token = .symbol .closeParen
  · rw [separator_of_close hclose] at h
    cases h
    exact .inl ⟨hclose, rfl⟩
  · rw [separator_of_ne hclose] at h
    exact .inr (expect_eq_ok h)

theorem arguments_sound (hsound : Sound (levels room) room) {left : List Char}
    {ds : List Directive} (h : arguments (levels room) left s = .ok ds s') :
    ∃ ts parts, Passes s (ts ++ [.symbol .closeParen]) s' ∧ CommaJoined parts ts ∧
      (∀ p ∈ parts, Derives loosest p.1 p.2) ∧ ds = parts.map (·.2) ∧
        Directive.largestCost ds ≤ room := by
  induction left generalizing s ds with
  | nil =>
      by_cases hclose : s.token = .symbol .closeParen
      · rw [arguments_of_close hclose] at h
        obtain ⟨_, s₁, hadvance, h⟩ := bind_eq_ok h
        obtain ⟨rfl, rfl⟩ := pure_eq_ok h
        exact ⟨[], [], hclose ▸ .single hadvance, .nil, by simp, rfl, Nat.zero_le _⟩
      · rw [arguments_of_ne hclose] at h
        obtain ⟨first, s₁, -, h⟩ := bind_eq_ok h
        obtain ⟨_, s₂, -, h⟩ := bind_eq_ok h
        cases h
  | cons c left ih =>
      by_cases hclose : s.token = .symbol .closeParen
      · rw [arguments_of_close hclose] at h
        obtain ⟨_, s₁, hadvance, h⟩ := bind_eq_ok h
        obtain ⟨rfl, rfl⟩ := pure_eq_ok h
        exact ⟨[], [], hclose ▸ .single hadvance, .nil, by simp, rfl, Nat.zero_le _⟩
      · rw [arguments_of_ne hclose] at h
        obtain ⟨first, s₁, hfirst, h⟩ := bind_eq_ok h
        obtain ⟨_, s₂, hseparator, h⟩ := bind_eq_ok h
        obtain ⟨rest, s₃, hrest, h⟩ := bind_eq_ok h
        obtain ⟨rfl, rfl⟩ := pure_eq_ok h
        obtain ⟨us, hpass, hderives, hcost⟩ := hsound.chain hfirst
        rcases separator_sound hseparator with ⟨hend, rfl⟩ | ⟨hcomma, hadvance⟩
        · rw [arguments_of_close hend] at hrest
          obtain ⟨_, s₃, hadvance, hrest⟩ := bind_eq_ok hrest
          obtain ⟨rfl, rfl⟩ := pure_eq_ok hrest
          refine ⟨us, [(us, first)], hpass.append (hend ▸ .single hadvance), .last _, ?_, rfl, ?_⟩
          · simpa using hderives
          · exact Nat.max_le.2 ⟨hcost, Nat.zero_le _⟩
        · obtain ⟨ts, parts, hpass', hjoined, hparts, rfl, hcosts⟩ := ih hrest
          refine ⟨us ++ .symbol .comma :: ts, (us, first) :: parts, ?_, .cons _ hjoined, ?_, rfl, ?_⟩
          · rw [List.append_assoc, List.cons_append, ← hcomma]
            exact hpass.append (.cons hadvance hpass')
          · exact List.forall_mem_cons.2 ⟨hderives, hparts⟩
          · exact Nat.max_le.2 ⟨hcost, hcosts⟩

/-- What the readers one level deeper must do for the readers at a depth. -/
abbrev SoundBelow (room : Nat) : Prop := ∀ r, room = r + 1 → Sound (levels r) r

theorem descend_eq_ok {α : Type} {reader : Levels → Reader α} {a : α}
    (h : descend (deeper room) reader s = .ok a s') :
    ∃ r, room = r + 1 ∧ reader (levels r) (s.atDepth (s.depth + 1)) = .ok a s' := by
  cases room with
  | zero =>
      rw [deeper, descend_none] at h
      cases h
  | succ r => exact ⟨r, rfl, descend_some (levels r) reader ▸ h⟩

/-- An inner expression is one level deeper, and the depth is put back after it. -/
theorem inner_sound (hbelow : SoundBelow room)
    (h : restoringDepth (descend (deeper room) fun levels => levels.chain level) s = .ok d s') :
    ∃ ts, Passes s ts s' ∧ Derives level ts d ∧ 1 + d.cost ≤ room := by
  obtain ⟨s₁, hdescend, rfl⟩ := restoringDepth_eq_ok h
  obtain ⟨r, rfl, hchain⟩ := descend_eq_ok hdescend
  obtain ⟨ts, hpass, hderives, hcost⟩ := (hbelow r rfl).chain hchain
  exact ⟨ts, by simpa using hpass.atDepth s.depth, hderives, by omega⟩

theorem callArguments_sound (hbelow : SoundBelow room) {ds : List Directive}
    (h : restoringDepth (descend (deeper room) callArguments) s = .ok ds s') :
    ∃ ts parts, Passes s (ts ++ [.symbol .closeParen]) s' ∧ CommaJoined parts ts ∧
      (∀ p ∈ parts, Derives loosest p.1 p.2) ∧ ds = parts.map (·.2) ∧
        1 + Directive.largestCost ds ≤ room := by
  obtain ⟨s₁, hdescend, rfl⟩ := restoringDepth_eq_ok h
  obtain ⟨r, rfl, harguments⟩ := descend_eq_ok hdescend
  rw [callArguments, get_bind] at harguments
  obtain ⟨ts, parts, hpass, hjoined, hparts, hds, hcost⟩ :=
    arguments_sound (hbelow r rfl) harguments
  exact ⟨ts, parts, by simpa using hpass.atDepth s.depth, hjoined, hparts, hds, by omega⟩

theorem primary_sound (hbelow : SoundBelow room)
    (h : primary (deeper room) s = .ok d s') :
    ∃ ts, Passes s ts s' ∧ Derives 0 ts d ∧ d.cost ≤ room := by
  cases ht : s.token with
  | literal value =>
      rw [primary_of_literal ht] at h
      obtain ⟨_, s₁, htake, h⟩ := bind_eq_ok h
      obtain ⟨rfl, rfl⟩ := pure_eq_ok h
      exact ⟨_, ht ▸ .single (take_eq_ok_iff.1 htake), .literal value, Nat.zero_le _⟩
  | word name =>
      cases htake : take s with
      | error e s₁ =>
          rw [primary_of_word_error ht htake] at h
          cases h
      | ok _ s₁ =>
          have hadvance := take_eq_ok_iff.1 htake
          by_cases hnext : s₁.token = .symbol .openParen
          · rw [primary_of_call ht htake hnext] at h
            obtain ⟨_, s₂, hopen, h⟩ := bind_eq_ok h
            obtain ⟨ds, s₃, harguments, h⟩ := bind_eq_ok h
            obtain ⟨rfl, rfl⟩ := pure_eq_ok h
            obtain ⟨ts, parts, hpass, hjoined, hparts, rfl, hcost⟩ :=
              callArguments_sound hbelow harguments
            exact ⟨_, ht ▸ .cons hadvance (hnext ▸ .cons hopen hpass),
              .call name parts hjoined hparts, hcost⟩
          · rw [primary_of_column ht htake hnext] at h
            cases h
            exact ⟨_, ht ▸ .single hadvance, .column name, Nat.zero_le _⟩
  | endOfText =>
      rw [primary, get_bind, ht] at h
      cases h
  | symbol symbol =>
      cases symbol with
      | and =>
          rw [primary_of_and ht] at h
          obtain ⟨_, s₁, htake, h⟩ := bind_eq_ok h
          obtain ⟨rfl, rfl⟩ := pure_eq_ok h
          exact ⟨_, ht ▸ .single (take_eq_ok_iff.1 htake), .andColumn, Nat.zero_le _⟩
      | or =>
          rw [primary_of_or ht] at h
          obtain ⟨_, s₁, htake, h⟩ := bind_eq_ok h
          obtain ⟨rfl, rfl⟩ := pure_eq_ok h
          exact ⟨_, ht ▸ .single (take_eq_ok_iff.1 htake), .orColumn, Nat.zero_le _⟩
      | openParen =>
          rw [primary_of_openParen ht] at h
          obtain ⟨_, s₁, htake, h⟩ := bind_eq_ok h
          obtain ⟨inner, s₂, hinner, h⟩ := bind_eq_ok h
          obtain ⟨_, s₃, hclose, h⟩ := bind_eq_ok h
          obtain ⟨rfl, rfl⟩ := pure_eq_ok h
          obtain ⟨ts, hpass, hderives, hcost⟩ := inner_sound hbelow hinner
          obtain ⟨htoken, hadvance⟩ := expect_eq_ok hclose
          exact ⟨_, ht ▸ .cons (take_eq_ok_iff.1 htake)
            (hpass.append (htoken ▸ .single hadvance)), .group hderives, hcost⟩
      | _ =>
          rw [primary, get_bind, ht] at h
          cases h

theorem prefixed_sound (hbelow : SoundBelow room)
    (h : prefixed (deeper room) s = .ok d s') :
    ∃ ts, Passes s ts s' ∧ Derives 0 ts d ∧ d.cost ≤ room := by
  cases hop : UnaryOperator.ofToken? s.token with
  | none =>
      rw [prefixed_of_none hop] at h
      exact primary_sound hbelow h
  | some op =>
      rw [prefixed_of_some hop] at h
      obtain ⟨_, s₁, hadvance, h⟩ := bind_eq_ok h
      obtain ⟨operand, s₂, hoperand, h⟩ := bind_eq_ok h
      obtain ⟨rfl, rfl⟩ := pure_eq_ok h
      obtain ⟨ts, hpass, hderives, hcost⟩ := inner_sound hbelow hoperand
      exact ⟨_, .cons hadvance hpass, .unary hop hderives, hcost⟩

theorem chainRest_sound (hbelow : SoundBelow room) {left : Directive} {ts : List Token}
    (h : chainRest (deeper room) (level + 1) left s = .ok d s')
    (hleft : Derives (level + 1) ts left) :
    ∃ us, Passes s us (s'.atDepth s.depth) ∧ Derives (level + 1) (ts ++ us) d ∧
      d.cost ≤ max left.cost (left.spine (level + 1) + room) := by
  cases hop : atLevel? (level + 1) s.token with
  | none =>
      rw [chainRest_of_none hop] at h
      cases h
      exact ⟨[], .nil s, by simpa using hleft, Nat.le_max_left _ _⟩
  | some op =>
      rw [chainRest_of_some hop] at h
      obtain ⟨_, s₁, hadvance, h⟩ := bind_eq_ok h
      obtain ⟨r, rfl, hdescend⟩ := descend_eq_ok h
      obtain ⟨right, s₂, hright, hrest⟩ := bind_eq_ok hdescend
      obtain ⟨us, hpass, hderives, hcost⟩ := (hbelow r rfl).chain hright
      have hbinary := Derives.binary hleft hop hderives
      obtain ⟨vs, hpass', hderives', hcost'⟩ := (hbelow r rfl).chainRest hrest hbinary
      have hdepth : s₁.depth = s.depth := (advance_eq_ok hadvance).2.2
      have hpassed : Passes s₁ (us ++ vs) (s'.atDepth s.depth) := by
        have h₁ := (hpass.append (by simpa [hpass.depth_eq] using hpass')).atDepth s.depth
        simpa [hdepth, ReaderState.atDepth_of_depth_eq] using h₁
      refine ⟨s.token :: (us ++ vs), .cons hadvance hpassed, ?_, ?_⟩
      · simpa using hderives'
      · have hlevel := (atLevel?_eq_some_iff.1 hop).2
        rw [Directive.cost, Directive.spine, if_pos hlevel, hlevel] at hcost'
        omega

theorem chain_sound (hbelow : SoundBelow room) (h : chain (deeper room) level s = .ok d s') :
    ∃ ts, Passes s ts s' ∧ Derives level ts d ∧ d.cost ≤ room := by
  induction level generalizing s s' d with
  | zero => exact prefixed_sound hbelow h
  | succ level ih =>
      rw [chain_succ] at h
      obtain ⟨s₂, hchain, rfl⟩ := restoringDepth_eq_ok h
      obtain ⟨left, s₁, hleft, hrest⟩ := bind_eq_ok hchain
      obtain ⟨ts, hpass, hderives, hcost⟩ := ih hleft
      obtain ⟨us, hpass', hderives', hcost'⟩ := chainRest_sound hbelow hrest hderives.lift
      refine ⟨ts ++ us, hpass.append (hpass.depth_eq ▸ hpass'), hderives', ?_⟩
      rw [hderives.spine_eq_zero (Nat.lt_succ_self level)] at hcost'
      omega

theorem levels_sound (room : Nat) : Sound (levels room) room := by
  induction room with
  | zero =>
      have hbelow : SoundBelow 0 := fun r hr => by omega
      exact ⟨chain_sound hbelow, chainRest_sound hbelow⟩
  | succ room ih =>
      have hbelow : SoundBelow (room + 1) := by
        rintro r hr
        cases hr
        exact ih
      exact ⟨chain_sound hbelow, chainRest_sound hbelow⟩

/-- What an expression reader accepts is an expression within the room. -/
theorem expression_sound (h : expression s = .ok d s') :
    ∃ ts, Passes s ts s' ∧ Derives loosest ts d ∧ d.cost ≤ maxDepth - s.depth := by
  rw [expression, get_bind] at h
  exact (levels_sound _).chain h

end QueryNotation.Reader
